import FpgaBitstream.Packet.Stream
import FpgaBitstream.Proofs.BigEndian
import FpgaBitstream.Proofs.BitField

/-!
# Packets survive the stream

A packet can be sent when its register, its words and its word count fit the header and the words
of the family (`Packet.Fits`), and when a type-2 header that names no register stands behind a
packet for the register it means (`Packet.Follows`).  Reading takes exactly such a packet off the
front of the words that it was written to (`take_words`); by induction a run of packets that can be
sent (`Packet.Sendable`) is read back whole (`decodeAll_words`), and so it is from its bytes, in
which the first sync word is the one that the header ends with (`packets_encodeBytes`).
-/

namespace FpgaBitstream

variable {f : Family}

theorem Opcode.ofCode_code (opcode : Opcode) : Opcode.ofCode opcode.code = opcode := by
  cases opcode <;> rfl

/-! ## Packets that can be sent -/

/-- A word that fits the words of the packet stream. -/
def Family.Holds (f : Family) (word : Word) : Prop := word.toNat < 2 ^ (8 * f.wordBytes)

instance (word : Word) : Decidable (f.Holds word) := inferInstanceAs (Decidable (_ < _))

-- looks at the words of the list only, and not at every word there is
instance (words : List Word) : Decidable (∀ word ∈ words, f.Holds word) :=
  List.decidableBAll f.Holds words

/-- The number of words that the payload of a type-2 packet has to stay below. -/
def Family.longLimit : Family → Nat
  | .spartan6 => 2 ^ 32
  | _ => 2 ^ 27

theorem Family.two_pow_le_longLimit (f : Family) : 2 ^ 27 ≤ f.longLimit := by
  cases f <;> decide

theorem Family.holds_of_wide (h : f.hasWideWords = true) (word : Word) : f.Holds word := by
  have := word.isLt
  cases f
  case spartan6 => cases h
  all_goals exact this

/-- The two halves of a word fit the narrow stream. -/
theorem Family.holds_high (word : Word) : Family.Holds .spartan6 (word >>> 16) := by
  show (word >>> 16).toNat < 2 ^ 16
  bv_omega

theorem Family.holds_low (word : Word) : Family.Holds .spartan6 (word &&& 0xFFFF) := by
  show (word &&& 0xFFFF).toNat < 2 ^ 16
  rw [BitVec.toNat_and]
  exact Nat.lt_of_le_of_lt Nat.and_le_right (by decide)

theorem Family.two_le_maxType1Words (f : Family) : 2 ≤ f.maxType1Words := by
  cases f <;> decide

namespace Packet

/-- A packet whose parts all fit the header and the words of the stream. -/
structure Fits (p : Packet f) : Prop where
  register : p.register.raw.toNat < 2 ^ f.headerLayout.register.width
  words : ∀ word ∈ p.data, f.Holds word
  plain : p.header = .type0 → p.opcode = .nop ∧ p.register = .crc f ∧ p.data = []
  short : p.header = .type1 → p.data.length ≤ f.maxType1Words
  long : p.header = .type2 → p.data.length < f.longLimit

theorem header_write_ne (register : Register f) (data : List Word) :
    (write register data).header ≠ .type2 :=
  show HeaderType.type1 ≠ .type2 by decide

theorem fits_write {register : Register f} {data : List Word}
    (hregister : register.raw.toNat < 2 ^ f.headerLayout.register.width)
    (hdata : ∀ word ∈ data, f.Holds word) (hshort : data.length ≤ f.maxType1Words) :
    (write register data).Fits :=
  ⟨hregister, hdata, nofun, fun _ => hshort, nofun⟩

theorem fits_longWrite {register : Register f} {data : List Word}
    (hregister : register.raw.toNat < 2 ^ f.headerLayout.register.width)
    (hdata : ∀ word ∈ data, f.Holds word) (hlong : data.length < f.longLimit) :
    (longWrite register data).Fits :=
  ⟨hregister, hdata, nofun, nofun, fun _ => hlong⟩

theorem fits_zeroPad (f : Family) : (zeroPad f).Fits :=
  ⟨Nat.two_pow_pos _, nofun, fun _ => ⟨rfl, rfl, rfl⟩, nofun, nofun⟩

theorem fits_nop (f : Family) : (nop f).Fits :=
  ⟨Nat.two_pow_pos _, nofun, nofun, fun _ => Nat.zero_le _, nofun⟩

theorem fits_command {c : Command} (hc : f.Holds c.raw) : (command f c).Fits := by
  refine fits_write (by cases f <;> decide) (fun word hmem => ?_)
    (Nat.le_of_succ_le f.two_le_maxType1Words)
  rw [List.mem_singleton.1 hmem]
  exact hc

theorem fits_frameAddress (a : FrameAddress f) :
    (frameAddress a).Fits ∧ (frameAddress a).header ≠ .type2 := by
  have hregister : (Register.frameAddress f).raw.toNat < 2 ^ f.headerLayout.register.width := by
    cases f <;> decide
  cases f
  case spartan6 =>
    refine ⟨fits_write hregister (fun word hmem => ?_) (Family.two_le_maxType1Words _),
      header_write_ne _ _⟩
    obtain rfl | rfl : word = a.raw >>> 16 ∨ word = a.raw &&& 0xFFFF := by simpa using hmem
    · exact Family.holds_high _
    · exact Family.holds_low _
  all_goals
    exact ⟨fits_write hregister (fun word _ => Family.holds_of_wide rfl word)
      (Nat.le_of_succ_le (Family.two_le_maxType1Words _)), header_write_ne _ _⟩

/-- A 32-bit header of type 2 stands behind a packet for the same register. -/
def Follows (previous : Option (Packet f)) (p : Packet f) : Prop :=
  f.hasWideWords → p.header = .type2 → previous.map (·.register) = some p.register

/-- A run of packets that can be sent behind another. -/
inductive Sendable : Option (Packet f) → List (Packet f) → Prop where
  | nil {previous : Option (Packet f)} : Sendable previous []
  | cons {previous : Option (Packet f)} {p : Packet f} {rest : List (Packet f)} (hp : p.Fits)
      (hfollows : p.Follows previous) (hrest : Sendable (some p) rest) :
      Sendable previous (p :: rest)

/-- Behind any packet there may be one that is not of type 2. -/
theorem follows_of_ne {p : Packet f} (h : p.header ≠ .type2) (previous : Option (Packet f)) :
    p.Follows previous :=
  fun _ htype => absurd htype h

theorem sendable_of_ne {packets : List (Packet f)}
    (h : ∀ p ∈ packets, p.Fits ∧ p.header ≠ .type2) (previous : Option (Packet f)) :
    Sendable previous packets := by
  induction packets generalizing previous with
  | nil => exact .nil
  | cons p rest ih =>
    obtain ⟨hp, hne⟩ := h p List.mem_cons_self
    exact .cons hp (follows_of_ne hne previous)
      (ih (fun q hq => h q (List.mem_cons_of_mem _ hq)) (some p))

theorem Sendable.append {previous : Option (Packet f)} {front rest : List (Packet f)}
    (hfront : Sendable previous front) (hrest : ∀ previous, Sendable previous rest) :
    Sendable previous (front ++ rest) := by
  induction hfront with
  | nil => exact hrest _
  | cons hp hfollows _ ih => exact .cons hp hfollows ih

theorem sendable_flatMap {α : Type} {pieces : List α} {packets : α → List (Packet f)}
    (h : ∀ piece ∈ pieces, ∀ previous, Sendable previous (packets piece))
    (previous : Option (Packet f)) : Sendable previous (pieces.flatMap packets) := by
  induction pieces generalizing previous with
  | nil => exact .nil
  | cons piece rest ih =>
    rw [List.flatMap_cons]
    exact (h piece List.mem_cons_self previous).append
      (ih fun q hq => h q (List.mem_cons_of_mem _ hq))

/-- One more packet may be sent in front of one that is not of type 2. -/
theorem Sendable.insert {previous : Option (Packet f)} {front rest : List (Packet f)}
    {p q : Packet f} (h : Sendable previous (front ++ q :: rest)) (hq : q.header ≠ .type2)
    (hp : p.Fits) (hne : p.header ≠ .type2) : Sendable previous (front ++ p :: q :: rest) := by
  induction front generalizing previous with
  | nil =>
    obtain _ | ⟨hqfits, -, hrest⟩ := h
    exact .cons hp (follows_of_ne hne _) (.cons hqfits (follows_of_ne hq _) hrest)
  | cons first front ih =>
    obtain _ | ⟨hfirst, hfollows, hrest⟩ := h
    exact .cons hfirst hfollows (ih hrest)

/-! ## Header words -/

/-- A header word before its register and its count are filled in. -/
def openHeader (f : Family) (header : HeaderType) (opcode : Opcode) : Word :=
  f.headerLayout.opcode.setNat (f.headerLayout.headerType.setNat 0 header.code) opcode.code

theorem headerType_openHeader (f : Family) (header : HeaderType) (opcode : Opcode) :
    f.headerLayout.headerType.getNat (openHeader f header opcode) = header.code := by
  have hdisjoint : f.headerLayout.headerType.Disjoint f.headerLayout.opcode := by
    cases f <;> decide
  rw [openHeader, BitRange.getNat_setNat_of_disjoint hdisjoint, BitRange.getNat_setNat_of_lt]
  cases f <;> cases header <;> decide

theorem opcode_openHeader (f : Family) (header : HeaderType) (opcode : Opcode) :
    Opcode.ofCode (f.headerLayout.opcode.getNat (openHeader f header opcode)) = opcode := by
  rw [openHeader, BitRange.getNat_setNat_of_lt, Opcode.ofCode_code]
  cases f <;> cases opcode <;> decide

/-- What is filled in behind the opcode leaves the type and the opcode alone. -/
structure Behind (f : Family) (range : BitRange 32) : Prop where
  headerType : f.headerLayout.headerType.Disjoint range
  opcode : f.headerLayout.opcode.Disjoint range

theorem behind_register (f : Family) : Behind f f.headerLayout.register := by
  cases f <;> exact ⟨by decide, by decide⟩

theorem behind_shortCount (f : Family) : Behind f f.headerLayout.shortCount := by
  cases f <;> exact ⟨by decide, by decide⟩

theorem behind_longCount {range : BitRange 32} (h : f.headerLayout.longCount = some range) :
    Behind f range := by
  cases f
  case spartan6 => cases h
  all_goals
    obtain rfl := Option.some.inj h
    exact ⟨by decide, by decide⟩

/-! ## One packet -/

theorem takePayload_append (header : HeaderType) (opcode : Opcode) (register : Register f)
    (data rest : List Word) :
    takePayload header opcode (some register) data.length (data ++ rest) =
      .packet ⟨header, opcode, register, data⟩ rest := by
  simp [takePayload]

/-- The two halves of a word make up the word. -/
theorem or_halves (word : Word) :
    ((word >>> 16 &&& 0xFFFF) <<< 16) ||| (word &&& 0xFFFF &&& 0xFFFF) = word := by
  have hlow (i : Nat) : (0xFFFF : Word).getLsbD i = decide (i < 16) := by
    rw [show (0xFFFF : Word) = BitVec.ofNat 32 (2 ^ 16 - 1) from rfl, BitVec.getLsbD_ofNat,
      Nat.testBit_two_pow_sub_one]
    grind
  refine BitVec.eq_of_getLsbD_eq fun i hi => ?_
  simp only [BitVec.getLsbD_or, BitVec.getLsbD_shiftLeft, BitVec.getLsbD_and,
    BitVec.getLsbD_ushiftRight, hlow]
  by_cases h : i < 16
  · simp [h]
  · have hback : 16 + (i - 16) = i := by omega
    have hhigh : i - 16 < 16 := by omega
    simp [h, hi, hback, hhigh]

theorem take_type1 {previous : Option (Packet f)} {header : Word} (rest : List Word)
    (h : f.headerLayout.headerType.getNat header = 1) :
    take previous (header :: rest) =
      takePayload .type1 (.ofCode (f.headerLayout.opcode.getNat header))
        (some ⟨f.headerLayout.register.get header⟩) (f.headerLayout.shortCount.getNat header)
        rest := by
  simp only [take, h]

theorem take_type2_wide {previous : Option (Packet f)} {header : Word} {range : BitRange 32}
    (rest : List Word) (h : f.headerLayout.headerType.getNat header = 2)
    (hrange : f.headerLayout.longCount = some range) :
    take previous (header :: rest) =
      takePayload .type2 (.ofCode (f.headerLayout.opcode.getNat header))
        (previous.map (·.register)) (range.getNat header) rest := by
  simp only [take, h, hrange]

theorem take_type2_narrow {previous : Option (Packet f)} {header high low : Word}
    (rest : List Word) (h : f.headerLayout.headerType.getNat header = 2)
    (hnone : f.headerLayout.longCount = none) :
    take previous (header :: high :: low :: rest) =
      takePayload .type2 (.ofCode (f.headerLayout.opcode.getNat header))
        (some ⟨f.headerLayout.register.get header⟩)
        (((high &&& 0xFFFF) <<< 16) ||| (low &&& 0xFFFF)).toNat rest := by
  simp only [take, h, hnone]

/-- A word count below `2 ^ 32` is the number in its word. -/
theorem toNat_count {count : Nat} (h : count < 2 ^ 32) : (BitVec.ofNat 32 count).toNat = count := by
  rw [BitVec.toNat_ofNat, Nat.mod_eq_of_lt h]

theorem take_words_type0 {previous : Option (Packet f)} (rest : List Word) :
    take previous ((zeroPad f).words ++ rest) = .packet (zeroPad f) rest := by
  cases f <;> rfl

theorem take_words_type1 {previous : Option (Packet f)} {opcode : Opcode} {register : Register f}
    {data : List Word} (hp : Fits ⟨.type1, opcode, register, data⟩) (rest : List Word) :
    take previous (words ⟨.type1, opcode, register, data⟩ ++ rest) =
      .packet ⟨.type1, opcode, register, data⟩ rest := by
  have hlength := hp.short rfl
  have hcount : (BitVec.ofNat 32 data.length).toNat = data.length := by
    refine toNat_count (Nat.lt_of_le_of_lt hlength ?_)
    cases f <;> decide
  have hfit : data.length < 2 ^ f.headerLayout.shortCount.width := by
    cases f <;> exact Nat.lt_succ_of_le hlength
  have hapart : f.headerLayout.register.Disjoint f.headerLayout.shortCount := by
    cases f <;> decide
  have hregister := behind_register f
  have hshort := behind_shortCount f
  show take previous (f.headerLayout.shortCount.set (f.headerLayout.register.set
    (openHeader f .type1 opcode) register.raw) (BitVec.ofNat 32 data.length) :: (data ++ rest)) = _
  rw [take_type1, BitRange.getNat_set_of_disjoint hshort.opcode,
    BitRange.getNat_set_of_disjoint hregister.opcode, opcode_openHeader,
    BitRange.get_set_of_disjoint hapart, BitRange.get_set_of_lt _ hp.register,
    BitRange.getNat_set, hcount, Nat.mod_eq_of_lt hfit, takePayload_append]
  rw [BitRange.getNat_set_of_disjoint hshort.headerType,
    BitRange.getNat_set_of_disjoint hregister.headerType, headerType_openHeader]
  rfl

theorem take_words_type2 {previous : Option (Packet f)} {opcode : Opcode} {register : Register f}
    {data : List Word} (hp : Fits ⟨.type2, opcode, register, data⟩)
    (hfollows : Follows previous ⟨.type2, opcode, register, data⟩) (rest : List Word) :
    take previous (words ⟨.type2, opcode, register, data⟩ ++ rest) =
      .packet ⟨.type2, opcode, register, data⟩ rest := by
  have hlength := hp.long rfl
  have hcount : (BitVec.ofNat 32 data.length).toNat = data.length := by
    refine toNat_count (Nat.lt_of_lt_of_le hlength ?_)
    cases f <;> decide
  cases hlong : f.headerLayout.longCount with
  | some range =>
    have hwide : f.hasWideWords = true := by
      cases f
      case spartan6 => cases hlong
      all_goals rfl
    have hfit : data.length < 2 ^ range.width := by
      cases f
      case spartan6 => cases hlong
      all_goals
        obtain rfl := Option.some.inj hlong
        exact hlength
    have hbehind := behind_longCount hlong
    have hwords : words ⟨.type2, opcode, register, data⟩ ++ rest =
        range.set (openHeader f .type2 opcode) (BitVec.ofNat 32 data.length) :: (data ++ rest) := by
      simp only [words, headerWords, hlong]
      rfl
    rw [hwords, take_type2_wide _ _ hlong, BitRange.getNat_set_of_disjoint hbehind.opcode,
      opcode_openHeader, BitRange.getNat_set, hcount, Nat.mod_eq_of_lt hfit, hfollows hwide rfl,
      takePayload_append]
    rw [BitRange.getNat_set_of_disjoint hbehind.headerType, headerType_openHeader]
    rfl
  | none =>
    have hregister := behind_register f
    have hwords : words ⟨.type2, opcode, register, data⟩ ++ rest =
        f.headerLayout.register.set (openHeader f .type2 opcode) register.raw ::
          (BitVec.ofNat 32 data.length >>> 16) :: (BitVec.ofNat 32 data.length &&& 0xFFFF) ::
            (data ++ rest) := by
      simp only [words, headerWords, hlong]
      rfl
    rw [hwords, take_type2_narrow _ _ hlong, BitRange.getNat_set_of_disjoint hregister.opcode,
      opcode_openHeader, BitRange.get_set_of_lt _ hp.register, or_halves, hcount,
      takePayload_append]
    rw [BitRange.getNat_set_of_disjoint hregister.headerType, headerType_openHeader]
    rfl

/-- **A packet is taken off the front of the words that it was written to.** -/
theorem take_words {previous : Option (Packet f)} {p : Packet f} (hp : p.Fits)
    (hfollows : p.Follows previous) (rest : List Word) :
    take previous (p.words ++ rest) = .packet p rest := by
  obtain ⟨header, opcode, register, data⟩ := p
  cases header with
  | type0 =>
    obtain ⟨rfl, rfl, rfl⟩ : opcode = .nop ∧ register = .crc f ∧ data = [] := hp.plain rfl
    exact take_words_type0 rest
  | type1 => exact take_words_type1 hp rest
  | type2 => exact take_words_type2 hp hfollows rest

/-! ## Runs of packets -/

theorem decodeOnto_words {previous : Option (Packet f)} {packets : List (Packet f)}
    (h : Sendable previous packets) (done : List (Packet f)) :
    decodeOnto done previous (packets.flatMap words) = done.reverse ++ packets := by
  induction h generalizing done with
  | @nil previous =>
    have htake : take previous ([] : List Word) = .incomplete := rfl
    rw [List.flatMap_nil, decodeOnto, List.append_nil]
    split
    case h_1 heq => cases htake.symm.trans heq
    case h_2 heq => cases htake.symm.trans heq
    case h_3 => rfl
  | @cons previous p rest hp hfollows _ ih =>
    have htake := take_words hp hfollows (rest.flatMap words)
    rw [List.flatMap_cons, decodeOnto]
    split
    case h_1 p' rest' heq =>
      obtain ⟨rfl, rfl⟩ := Taken.packet.inj (htake.symm.trans heq)
      rw [ih, List.reverse_cons, List.append_assoc, List.singleton_append]
    case h_2 heq => cases htake.symm.trans heq
    case h_3 heq => cases htake.symm.trans heq

/-- **A run of packets is read back from its words.** -/
theorem decodeAll_words {packets : List (Packet f)} (h : Sendable none packets) :
    decodeAll (packets.flatMap words) = packets :=
  decodeOnto_words h []

/-! ## Every word of a stream fits -/

theorem holds_openHeader (header : HeaderType) (opcode : Opcode) :
    f.Holds (openHeader f header opcode) := by
  cases f <;> cases header <;> cases opcode <;> decide

/-- Filling in a field of a header keeps it within its word. -/
theorem holds_set {range : BitRange 32} (hrange : range.top < 8 * f.wordBytes) {word : Word}
    (h : f.Holds word) (field : Word) : f.Holds (range.set word field) :=
  BitRange.toNat_set_lt h hrange

theorem holds_headerWords (p : Packet f) : ∀ word ∈ p.headerWords, f.Holds word := by
  by_cases hwide : f.hasWideWords = true
  · exact fun word _ => f.holds_of_wide hwide word
  · obtain rfl : f = .spartan6 := by
      cases f <;> first | rfl | exact absurd rfl hwide
    obtain ⟨header, opcode, register, data⟩ := p
    have hregister : Family.Holds .spartan6 ((Family.headerLayout .spartan6).register.set
        (openHeader .spartan6 header opcode) register.raw) :=
      holds_set (by decide) (holds_openHeader header opcode) register.raw
    intro word hmem
    cases header with
    | type0 =>
      obtain rfl := List.mem_singleton.1 hmem
      show Family.Holds .spartan6 ((Family.headerLayout .spartan6).headerType.setNat 0 0)
      decide
    | type1 =>
      obtain rfl := List.mem_singleton.1 hmem
      exact holds_set (by decide) hregister _
    | type2 =>
      have hmem : word ∈ [(Family.headerLayout .spartan6).register.set
          (openHeader .spartan6 .type2 opcode) register.raw, BitVec.ofNat 32 data.length >>> 16,
          BitVec.ofNat 32 data.length &&& 0xFFFF] := hmem
      obtain rfl | rfl | rfl := by simpa using hmem
      · exact hregister
      · exact Family.holds_high _
      · exact Family.holds_low _

/-- The words of packets that can be sent fit the stream. -/
theorem Sendable.holds {previous : Option (Packet f)} {packets : List (Packet f)}
    (h : Sendable previous packets) : ∀ word ∈ packets.flatMap words, f.Holds word := by
  induction h with
  | nil => exact nofun
  | @cons _ p rest hp _ _ ih =>
    intro word hmem
    rw [List.flatMap_cons, words, List.mem_append, List.mem_append] at hmem
    rcases hmem with (hheader | hdata) | hrest
    · exact holds_headerWords p word hheader
    · exact hp.words word hdata
    · exact ih word hrest

end Packet

/-! ## Words and bytes -/

namespace Family

theorem bytesOfWords_append (front rest : List Word) :
    f.bytesOfWords (front ++ rest) = f.bytesOfWords front ++ f.bytesOfWords rest := by
  simp [bytesOfWords]

theorem length_bytesOfWords (words : List Word) :
    (f.bytesOfWords words).length = words.length * f.wordBytes := by
  simp [bytesOfWords]

/-- A word that fits is unchanged by being cut to the width of the stream. -/
theorem setWidth_setWidth {word : Word} (h : f.Holds word) :
    (word.setWidth (8 * f.wordBytes)).setWidth 32 = word := by
  have hwidth : 2 ^ (8 * f.wordBytes) ≤ 2 ^ 32 := by cases f <;> decide
  refine BitVec.eq_of_toNat_eq ?_
  rw [BitVec.toNat_setWidth, BitVec.toNat_setWidth, Nat.mod_eq_of_lt h,
    Nat.mod_eq_of_lt (Nat.lt_of_lt_of_le h hwidth)]

/-- **Words that fit are read back from their bytes.** -/
theorem wordsOfBytes_bytesOfWords {words : List Word} (h : ∀ word ∈ words, f.Holds word) :
    f.wordsOfBytes (f.bytesOfWords words) = words := by
  rw [wordsOfBytes, bytesOfWords, BigEndian.toList_wordsToBytes f.wordBytes_pos, List.map_map]
  calc words.map ((·.setWidth 32) ∘ (·.setWidth (8 * f.wordBytes)))
      = words.map id := List.map_congr_left fun word hmem => setWidth_setWidth (h word hmem)
    _ = words := List.map_id words

/-- Words read from bytes fit. -/
theorem holds_wordsOfBytes (bytes : List UInt8) : ∀ word ∈ f.wordsOfBytes bytes, f.Holds word := by
  intro word hmem
  obtain ⟨narrow, -, rfl⟩ := List.mem_map.1 hmem
  have hlt := narrow.isLt
  rw [Holds, BitVec.toNat_setWidth]
  exact Nat.lt_of_le_of_lt (Nat.mod_le _ _) hlt

end Family

/-! ## The sync word -/

/-- Bytes without the first byte of the sync word are passed over. -/
theorem afterSyncWord?_append {lead : List UInt8} (h : ∀ byte ∈ lead, byte ≠ 0xAA)
    (rest : List UInt8) : afterSyncWord? (lead ++ (syncWord ++ rest)) = some rest := by
  induction lead with
  | nil => rfl
  | cons byte lead ih =>
    have hne : ¬ (byte :: (lead ++ (syncWord ++ rest))).take syncWord.length = syncWord :=
      fun heq => h byte List.mem_cons_self (List.cons.inj heq).1
    rw [List.cons_append, afterSyncWord?, if_neg hne,
      ih fun other hmem => h other (List.mem_cons_of_mem _ hmem)]

/-- The sync header ends with the only sync word in it. -/
theorem exists_lead_syncHeader (f : Family) :
    ∃ lead, f.bytesOfWords f.syncHeader = lead ++ syncWord ∧ ∀ byte ∈ lead, byte ≠ 0xAA := by
  refine ⟨(f.bytesOfWords f.syncHeader).take ((f.bytesOfWords f.syncHeader).length - 4), ?_⟩
  cases f <;> decide +kernel

namespace Packet

/-- **Packets that can be sent are read back from their bytes.** -/
theorem packets_encodeBytes {packets : List (Packet f)} (h : Sendable none packets) :
    (PacketStream.ofBytes? (encodeBytes packets)).map (·.packets) = some packets := by
  obtain ⟨lead, hlead, hnone⟩ := exists_lead_syncHeader f
  rw [encodeBytes, encodeAll, Family.bytesOfWords_append, hlead, List.append_assoc,
    PacketStream.ofBytes?, afterSyncWord?_append hnone, Option.map_some, Option.map_some,
    PacketStream.packets, Family.wordsOfBytes_bytesOfWords h.holds, decodeAll_words h]

/-! ## Packets that were read -/

/-- What was taken holds words of the run it was taken from. -/
def Taken.From (words : List Word) : Taken f → Prop
  | packet p rest => p.data ⊆ words ∧ rest ⊆ words
  | skipped rest => rest ⊆ words
  | incomplete => True

theorem Taken.From.mono {taken : Taken f} {words words' : List Word} (hsub : words ⊆ words')
    (h : taken.From words) : taken.From words' := by
  cases taken with
  | packet p rest => exact ⟨List.Subset.trans h.1 hsub, List.Subset.trans h.2 hsub⟩
  | skipped rest => exact List.Subset.trans h hsub
  | incomplete => trivial

theorem from_takePayload (header : HeaderType) (opcode : Opcode) (register : Option (Register f))
    (count : Nat) (words : List Word) :
    (takePayload header opcode register count words).From words := by
  simp only [takePayload]
  split
  · trivial
  · split
    · exact ⟨List.take_subset _ _, List.drop_subset _ _⟩
    · exact List.drop_subset _ _

theorem from_take (previous : Option (Packet f)) (words : List Word) :
    (take previous words).From words := by
  cases words with
  | nil => trivial
  | cons header rest =>
    have hrest : rest ⊆ header :: rest := List.subset_cons_self _ _
    simp only [take]
    split
    · exact ⟨List.nil_subset _, hrest⟩
    · exact (from_takePayload _ _ _ _ _).mono hrest
    · split
      · exact (from_takePayload _ _ _ _ _).mono hrest
      · refine (from_takePayload _ _ _ _ _).mono (List.Subset.trans ?_ hrest)
        exact List.Subset.trans (List.subset_cons_self _ _) (List.subset_cons_self _ _)
      · trivial
    · exact List.nil_subset _

theorem data_subset_of_mem_decodeOnto (done : List (Packet f)) (previous : Option (Packet f))
    (words : List Word) :
    ∀ p ∈ decodeOnto done previous words, p ∈ done ∨ p.data ⊆ words := by
  fun_induction decodeOnto done previous words with
  | case1 done previous words p rest htake ih =>
    have hfrom := from_take previous words
    rw [htake] at hfrom
    intro q hq
    rcases ih q hq with hdone | hdata
    · rcases List.mem_cons.1 hdone with rfl | hdone
      · exact Or.inr hfrom.1
      · exact Or.inl hdone
    · exact Or.inr (List.Subset.trans hdata hfrom.2)
  | case2 done previous words rest htake ih =>
    have hfrom := from_take previous words
    rw [htake] at hfrom
    exact fun q hq => (ih q hq).imp_right fun hdata => List.Subset.trans hdata hfrom
  | case3 done previous words htake => exact fun q hq => Or.inl (List.mem_reverse.1 hq)

end Packet

/-- **The data of packets that were read from bytes fits the stream.** -/
theorem PacketStream.holds_data {bytes : List UInt8} {stream : PacketStream f}
    (h : PacketStream.ofBytes? bytes = some stream) {p : Packet f} (hp : p ∈ stream.packets) :
    ∀ word ∈ p.data, f.Holds word := by
  obtain ⟨rest, -, rfl⟩ := Option.map_eq_some_iff.1 h
  rcases Packet.data_subset_of_mem_decodeOnto [] none _ p hp with hnil | hdata
  · cases hnil
  · exact fun word hword => Family.holds_wordsOfBytes rest word (hdata hword)

end FpgaBitstream
