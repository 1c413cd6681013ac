import FpgaBitstream.Packet.Cursor
import FpgaBitstream.Proofs.Decoding
import FpgaBitstream.Proofs.EccArithmetic

/-!
# The words of one packet

The front of a run of words asks for a number of words (`Packet.demand`), which does not depend on
the packet before.  Where there are fewer, no packet is taken and all words are left; otherwise just
these words are taken, and they are the header and the data of the packet if one is yielded
(`Packet.took`).  Written with slices that can fail (`Packet.Checked.parse?`), reading a packet does
not fail, since all of its slices lie within the run (`Packet.Checked.parse?_eq`).
-/

namespace FpgaBitstream

namespace Packet

variable {f : Family}

/-! ## What is asked for -/

/-- The number of words of a header. -/
def headerLength (f : Family) : HeaderType → Nat
  | .type2 => if f.headerLayout.longCount.isSome then 1 else 3
  | _ => 1

theorem length_headerWords (p : Packet f) : p.headerWords.length = headerLength f p.header := by
  obtain ⟨header, opcode, register, data⟩ := p
  cases header <;> cases f <;> rfl

/-- The number of words that the front of a run asks for: a header and the payload that it
announces, or all words behind a header of unknown type. -/
def demand (f : Family) : List Word → Nat
  | [] => 1
  | header :: rest =>
    let layout := f.headerLayout
    match layout.headerType.getNat header with
    | 0 => 1
    | 1 => 1 + layout.shortCount.getNat header
    | 2 =>
      match layout.longCount, rest with
      | some range, _ => 1 + range.getNat header
      | none, high :: low :: _ => 3 + (((high &&& 0xFFFF) <<< 16) ||| (low &&& 0xFFFF)).toNat
      | none, _ => 3
    | _ => 1 + rest.length

theorem demand_pos (words : List Word) : 0 < demand f words := by
  unfold demand
  split
  · exact Nat.one_pos
  · dsimp only
    split
    · exact Nat.one_pos
    · omega
    · split <;> omega
    · omega

theorem takePayload_eq (type : HeaderType) (opcode : Opcode) (register : Option (Register f))
    (count : Nat) (words : List Word) :
    takePayload type opcode register count words =
      if words.length < count then .incomplete
      else match register with
        | some register => .packet ⟨type, opcode, register, words.take count⟩ (words.drop count)
        | none => .skipped (words.drop count) := by
  have hiff : (words.take count).length < count ↔ words.length < count := by
    rw [List.length_take]
    omega
  cases register <;> simp only [takePayload, hiff]

/-- What is taken from a run of words: nothing where there are too few, or else the words that are
asked for, which are the words of the packet if one is yielded. -/
inductive Took (words : List Word) : Taken f → Prop where
  | incomplete (h : words.length < demand f words) : Took words .incomplete
  | packet {p : Packet f} (h : demand f words ≤ words.length)
      (hlength : p.encodedLength = demand f words)
      (hdata : p.data = (words.drop p.headerWords.length).take p.data.length) :
    Took words (.packet p (words.drop (demand f words)))
  | skipped (h : demand f words ≤ words.length) :
    Took words (.skipped (words.drop (demand f words)))

/-- The words that a packet is taken from are as many as it takes to write it. -/
theorem Took.consumed {words rest : List Word} {p : Packet f} (h : Took words (.packet p rest)) :
    p.encodedLength ≤ words.length ∧ rest = words.drop p.encodedLength := by
  cases h with
  | packet h hlength hdata =>
    rw [hlength]
    exact ⟨h, rfl⟩

/-- Behind a header stand the words of the payload that it announces. -/
theorem Announces.took {previous : Option (Packet f)} {header : List Word} {type : HeaderType}
    {opcode : Opcode} {register : Option (Register f)} {count : Nat} (rest : List Word)
    (h : Announces previous header type opcode register count)
    (hheader : header.length = headerLength f type)
    (hdemand : demand f (header ++ rest) = header.length + count) :
    Took (header ++ rest) (take previous (header ++ rest)) := by
  have hdrop : rest.drop count = (header ++ rest).drop (demand f (header ++ rest)) := by
    rw [hdemand, List.drop_length_add_append]
  rw [h.whole, takePayload_eq]
  by_cases hshort : rest.length < count
  · rw [if_pos hshort]
    exact .incomplete (by rw [List.length_append]; omega)
  · have hlength : (rest.take count).length = count :=
      List.length_take_of_le (Nat.le_of_not_lt hshort)
    have hwithin : demand f (header ++ rest) ≤ (header ++ rest).length := by
      rw [List.length_append]
      omega
    rw [if_neg hshort, hdrop]
    cases register with
    | none => exact .skipped hwithin
    | some register =>
      refine .packet hwithin ?_ ?_
      · rw [encodedLength, length_headerWords, ← hheader, hlength, hdemand]
      · rw [length_headerWords, ← hheader, List.drop_left, hlength]

section Header
variable {previous : Option (Packet f)} {header : Word}

theorem take_unknown {type : Nat} (rest : List Word)
    (h : f.headerLayout.headerType.getNat header = type + 3) :
    take previous (header :: rest) = .skipped [] := by
  simp only [take, h]

theorem demand_type0 (h : f.headerLayout.headerType.getNat header = 0) (rest : List Word) :
    demand f (header :: rest) = 1 := by
  simp only [demand, h]

theorem demand_type1 (h : f.headerLayout.headerType.getNat header = 1) (rest : List Word) :
    demand f (header :: rest) = 1 + f.headerLayout.shortCount.getNat header := by
  simp only [demand, h]

theorem demand_type2_wide {range : BitRange 32} (h : f.headerLayout.headerType.getNat header = 2)
    (hrange : f.headerLayout.longCount = some range) (rest : List Word) :
    demand f (header :: rest) = 1 + range.getNat header := by
  simp only [demand, h, hrange]

theorem demand_type2_narrow (h : f.headerLayout.headerType.getNat header = 2)
    (hnone : f.headerLayout.longCount = none) (high low : Word) (rest : List Word) :
    demand f (header :: high :: low :: rest) =
      3 + (((high &&& 0xFFFF) <<< 16) ||| (low &&& 0xFFFF)).toNat := by
  simp only [demand, h, hnone]

/-- Fewer than three words are no narrow header of type 2. -/
theorem take_narrow_short (h : f.headerLayout.headerType.getNat header = 2)
    (hnone : f.headerLayout.longCount = none) {rest : List Word} (hshort : rest.length < 2) :
    take previous (header :: rest) = .incomplete := by
  have htake : take previous ((header :: rest).take (header :: rest).length) = .incomplete :=
    take_type2_short h hnone hshort _
  rwa [List.take_length] at htake

theorem took_narrow_short (h : f.headerLayout.headerType.getNat header = 2)
    (hnone : f.headerLayout.longCount = none) {rest : List Word} (hshort : rest.length < 2) :
    Took (header :: rest) (take previous (header :: rest)) := by
  have hdemand : demand f (header :: rest) = 3 := by
    match rest, hshort with
    | [], _ => simp only [demand, h, hnone]
    | [_], _ => simp only [demand, h, hnone]
  rw [take_narrow_short h hnone hshort]
  refine .incomplete ?_
  rw [hdemand, List.length_cons]
  omega

theorem demand_unknown {type : Nat} (h : f.headerLayout.headerType.getNat header = type + 3)
    (rest : List Word) : demand f (header :: rest) = (header :: rest).length := by
  simp only [demand, h, List.length_cons, Nat.add_comm]

end Header

/-- **What is taken** is what the front of the run asks for. -/
theorem took (previous : Option (Packet f)) (words : List Word) :
    Took words (take previous words) := by
  match words with
  | [] => exact .incomplete Nat.one_pos
  | header :: rest =>
    match h : f.headerLayout.headerType.getNat header with
    | 0 => exact (announces_type0 h).took rest rfl (demand_type0 h rest)
    | 1 => exact (announces_type1 h).took rest rfl (demand_type1 h rest)
    | 2 =>
      cases hlong : f.headerLayout.longCount with
      | some range =>
        have hheader : [header].length = headerLength f .type2 := by simp [headerLength, hlong]
        exact (announces_type2_wide h hlong).took rest hheader (demand_type2_wide h hlong rest)
      | none =>
        match rest with
        | high :: low :: rest =>
          have hheader : [header, high, low].length = headerLength f .type2 := by
            simp [headerLength, hlong]
          exact (announces_type2_narrow h hlong).took rest hheader
            (demand_type2_narrow h hlong high low rest)
        | [] => exact took_narrow_short h hlong Nat.two_pos
        | [high] => exact took_narrow_short h hlong Nat.one_lt_two
    | type + 3 =>
      have hdrop : [] = (header :: rest).drop (demand f (header :: rest)) := by
        rw [demand_unknown h, List.drop_length]
      rw [take_unknown rest h, hdrop]
      exact .skipped (Nat.le_of_eq (demand_unknown h rest))

/-! ## What is handed back -/

/-- What is handed back when a packet was read from the front of a run of words: the words that are
left, which are all of them just where there are too few, and the packet if there is one. -/
structure ReadsFront (words : List Word) (result : List Word × Option (Packet f)) : Prop where
  suffix : result.1 <:+ words
  unchanged_iff : result.1 = words ↔ words.length < demand f words
  unchanged (h : result.1 = words) : result.2 = none
  taken (h : demand f words ≤ words.length) : result.1 = words.drop (demand f words)
  consumed {p : Packet f} (h : result.2 = some p) :
    p.encodedLength ≤ words.length ∧ result.1 = words.drop p.encodedLength
  data {p : Packet f} (h : result.2 = some p) :
    p.data = (words.drop p.headerWords.length).take p.data.length

/-- The words that are asked for are not left. -/
theorem drop_demand_ne {words : List Word} (h : demand f words ≤ words.length) :
    words.drop (demand f words) ≠ words := by
  intro heq
  have hlength := congrArg List.length heq
  have hpos := demand_pos (f := f) words
  rw [List.length_drop] at hlength
  omega

theorem Took.readsFront {words : List Word} {taken : Taken f} (h : Took words taken) :
    ReadsFront words (taken.outcome words) := by
  cases h with
  | incomplete h =>
    exact ⟨List.suffix_rfl, iff_of_true rfl h, fun _ => rfl, fun hle => absurd h (Nat.not_lt.2 hle),
      nofun, nofun⟩
  | skipped h =>
    have hne := drop_demand_ne h
    exact ⟨List.drop_suffix _ _, iff_of_false hne (Nat.not_lt.2 h), fun _ => rfl, fun _ => rfl,
      nofun, nofun⟩
  | packet h hlength hdata =>
    have hne := drop_demand_ne h
    refine ⟨List.drop_suffix _ _, iff_of_false hne (Nat.not_lt.2 h), fun heq => absurd heq hne,
      fun _ => rfl, ?_, ?_⟩
    · rintro _ ⟨⟩
      exact (Took.packet h hlength hdata).consumed
    · rintro _ ⟨⟩
      exact hdata

theorem readsFront_parse (previous : Option (Packet f)) (words : List Word) :
    ReadsFront words (parse previous words) :=
  (took previous words).readsFront

/-- Without a packet before it a wide header of type 2 has no register, and its payload goes. -/
example : parse (f := .series7) none [0x50000002, 1, 2, 0x20000000] = ([0x20000000], none) := by
  decide

/-! ## Slices that can fail -/

namespace Checked

/-- The words from one index up to another, if these lie within the run. -/
def slice? (words : List Word) (start stop : Nat) : Option (List Word) :=
  if start ≤ stop ∧ stop ≤ words.length then some ((words.take stop).drop start) else none

/-- Takes a payload of `count` words behind a header, if there are as many. -/
def takePayload? (words : List Word) (headerWords count : Nat) (header : HeaderType)
    (opcode : Opcode) (register : Option (Register f)) :
    Option (List Word × Option (Packet f)) := do
  let room ← Ecc.Checked.sub? words.length headerWords
  if room < count then return (words, none)
  let stop := headerWords + count
  let rest ← slice? words stop words.length
  match register with
  | some register =>
    let data ← slice? words headerWords stop
    return (rest, some ⟨header, opcode, register, data⟩)
  | none => return (rest, none)

/-- Reads one packet from the front of a run of words, unless an index lies outside of it. -/
def parse? (previous : Option (Packet f)) (words : List Word) :
    Option (List Word × Option (Packet f)) :=
  match words.head? with
  | none => some (words, none)
  | some header =>
    let layout := f.headerLayout
    let opcode := Opcode.ofCode (layout.opcode.getNat header)
    let register : Register f := ⟨layout.register.get header⟩
    match layout.headerType.getNat header with
    | 0 => do
      let rest ← slice? words 1 words.length
      return (rest, some ⟨.type0, opcode, .crc f, []⟩)
    | 1 => takePayload? words 1 (layout.shortCount.getNat header) .type1 opcode (some register)
    | 2 =>
      match layout.longCount with
      | some range =>
        takePayload? words 1 (range.getNat header) .type2 opcode (previous.map (·.register))
      | none =>
        if words.length < 3 then some (words, none)
        else do
          let high ← words[1]?
          let low ← words[2]?
          takePayload? words 3 (((high &&& 0xFFFF) <<< 16) ||| (low &&& 0xFFFF)).toNat .type2
            opcode (some register)
    | _ => do
      let rest ← slice? words words.length words.length
      return (rest, none)

theorem slice?_append (front middle rest : List Word) :
    slice? (front ++ middle ++ rest) front.length (front.length + middle.length) = some middle := by
  have hwithin : front.length ≤ front.length + middle.length ∧
      front.length + middle.length ≤ (front ++ middle ++ rest).length := by
    simp only [List.length_append]
    omega
  rw [slice?, if_pos hwithin, ← List.length_append, List.take_left, List.drop_left]

theorem slice?_drop (front rest : List Word) :
    slice? (front ++ rest) front.length (front ++ rest).length = some rest := by
  have h := slice?_append front rest []
  rwa [List.append_nil, ← List.length_append] at h

/-- Behind a header all slices of a payload lie within the run. -/
theorem takePayload?_eq (header rest : List Word) (count : Nat) (type : HeaderType)
    (opcode : Opcode) (register : Option (Register f)) :
    takePayload? (header ++ rest) header.length count type opcode register =
      some ((takePayload type opcode register count rest).outcome (header ++ rest)) := by
  have hroom : Ecc.Checked.sub? (header ++ rest).length header.length = some rest.length := by
    rw [Ecc.Checked.sub?, List.length_append, if_pos (Nat.le_add_right _ _),
      Nat.add_sub_cancel_left]
  rw [takePayload?, hroom, takePayload_eq]
  by_cases hshort : rest.length < count
  · rw [if_pos hshort]
    show (if rest.length < count then _ else _) = _
    rw [if_pos hshort]
    rfl
  · obtain ⟨data, rest, rfl, rfl⟩ : ∃ data rest', rest = data ++ rest' ∧ data.length = count :=
      ⟨rest.take count, rest.drop count, (List.take_append_drop _ _).symm,
        List.length_take_of_le (Nat.le_of_not_lt hshort)⟩
    have hdata := slice?_append header data rest
    have hrest := slice?_drop (header ++ data) rest
    rw [List.length_append, List.append_assoc] at hrest
    rw [List.append_assoc] at hdata
    rw [if_neg hshort, List.take_left, List.drop_left]
    show (if (data ++ rest).length < data.length then _ else _) = _
    rw [if_neg hshort, hrest]
    cases register with
    | none => rfl
    | some register =>
      show (slice? _ _ _ >>= _) = _
      rw [hdata]
      rfl

/-- Behind a header that announces a payload no slice is out of bounds. -/
theorem parse_of_announces {previous : Option (Packet f)} {header : List Word} {type : HeaderType}
    {opcode : Opcode} {register : Option (Register f)} {count : Nat}
    (h : Announces previous header type opcode register count) (rest : List Word) :
    takePayload? (header ++ rest) header.length count type opcode register =
      some (parse previous (header ++ rest)) := by
  rw [takePayload?_eq, parse, h.whole]

theorem parse?_narrow_short {previous : Option (Packet f)} {header : Word}
    (h : f.headerLayout.headerType.getNat header = 2) (hnone : f.headerLayout.longCount = none)
    {rest : List Word} (hshort : rest.length < 2) :
    parse? previous (header :: rest) = some (parse previous (header :: rest)) := by
  have hlength : (header :: rest).length < 3 := Nat.succ_lt_succ hshort
  simp only [parse?, List.head?_cons, h, hnone, if_pos hlength]
  rw [parse, take_narrow_short h hnone hshort]
  rfl

/-- **No slice is out of bounds.** -/
theorem parse?_eq (previous : Option (Packet f)) (words : List Word) :
    parse? previous words = some (parse previous words) := by
  match words with
  | [] => rfl
  | header :: rest =>
    match h : f.headerLayout.headerType.getNat header with
    | 0 =>
      have hrest : slice? (header :: rest) 1 (header :: rest).length = some rest :=
        slice?_drop [header] rest
      have htake : take previous (header :: rest) =
          .packet ⟨.type0, .ofCode (f.headerLayout.opcode.getNat header), .crc f, []⟩ rest := by
        simp only [take, h]
      simp only [parse?, List.head?_cons, h, hrest, parse, htake]
      rfl
    | 1 =>
      simp only [parse?, List.head?_cons, h]
      exact parse_of_announces (announces_type1 h) rest
    | 2 =>
      cases hlong : f.headerLayout.longCount with
      | some range =>
        simp only [parse?, List.head?_cons, h, hlong]
        exact parse_of_announces (announces_type2_wide h hlong) rest
      | none =>
        cases rest with
        | nil => exact parse?_narrow_short h hlong Nat.two_pos
        | cons high rest =>
          cases rest with
          | nil => exact parse?_narrow_short h hlong Nat.one_lt_two
          | cons low rest =>
            have hlength : ¬ (header :: high :: low :: rest).length < 3 := by
              simp only [List.length_cons]
              omega
            simp only [parse?, List.head?_cons, h, hlong, if_neg hlength]
            exact parse_of_announces (announces_type2_narrow h hlong) rest
    | type + 3 =>
      have hnil : slice? (header :: rest) (header :: rest).length (header :: rest).length =
          some [] := by
        have hslice := slice?_drop (header :: rest) []
        rwa [List.append_nil] at hslice
      simp only [parse?, List.head?_cons, h, hnil, parse, take_unknown rest h]
      rfl

end Checked

end Packet
end FpgaBitstream
