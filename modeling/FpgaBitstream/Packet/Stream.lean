import FpgaBitstream.BigEndian
import FpgaBitstream.Packet

/-!
# Packet streams

A bitstream is a run of bytes in which the sync word marks the start of a stream of words, and the
words spell packets. `Packet.take` reads one packet from the front of a run of words and
`Packet.decodeAll` all of them, up to the first that is incomplete; `Packet.encodeAll` writes
packets behind the family's sync header. `PacketStream` holds the words found behind a sync word.
-/

namespace FpgaBitstream

/-- What stands at the front of a run of words. -/
inductive Packet.Taken (f : Family) where
  /-- A packet, and the words behind it. -/
  | packet (p : Packet f) (rest : List Word)
  /-- Words that make up no packet, and the words behind them. -/
  | skipped (rest : List Word)
  /-- Too few words for the header or for the payload that it announces. -/
  | incomplete
  deriving DecidableEq, Repr

namespace Packet

variable {f : Family}

/-- The words behind what was taken, if anything was. -/
def Taken.rest? : Taken f → Option (List Word)
  | packet _ rest => some rest
  | skipped rest => some rest
  | incomplete => none

/-- Takes a payload of `count` words. A payload without a register is skipped. -/
def takePayload (header : HeaderType) (opcode : Opcode) (register : Option (Register f))
    (count : Nat) (words : List Word) : Taken f :=
  let data := words.take count
  if data.length < count then .incomplete
  else match register with
    | some register => .packet ⟨header, opcode, register, data⟩ (words.drop count)
    | none => .skipped (words.drop count)

/-- Reads one packet from the front of a run of words. A type-2 header that takes its register from
the packet before it makes no packet where there is none, and a header of unknown type discards all
that follows. -/
def take (previous : Option (Packet f)) : List Word → Taken f
  | [] => .incomplete
  | header :: rest =>
    let layout := f.headerLayout
    let opcode := Opcode.ofCode (layout.opcode.getNat header)
    let register : Register f := ⟨layout.register.get header⟩
    match layout.headerType.getNat header with
    | 0 => .packet ⟨.type0, opcode, .crc f, []⟩ rest
    | 1 => takePayload .type1 opcode (some register) (layout.shortCount.getNat header) rest
    | 2 =>
      match layout.longCount, rest with
      | some range, _ =>
        takePayload .type2 opcode (previous.map (·.register)) (range.getNat header) rest
      | none, high :: low :: rest =>
        let count := ((high &&& 0xFFFF) <<< 16) ||| (low &&& 0xFFFF)
        takePayload .type2 opcode (some register) count.toNat rest
      | none, _ => .incomplete
    | _ => .skipped []

theorem takePayload_rest_le {header : HeaderType} {opcode : Opcode}
    {register : Option (Register f)} {count : Nat} {words rest : List Word}
    (h : (takePayload header opcode register count words).rest? = some rest) :
    rest.length ≤ words.length := by
  simp only [takePayload] at h
  split at h
  · simp [Taken.rest?] at h
  · split at h <;> (obtain rfl := Option.some.inj h; simp)

/-- Whatever is taken takes at least one word. -/
theorem take_rest_lt {previous : Option (Packet f)} {words rest : List Word}
    (h : (take previous words).rest? = some rest) : rest.length < words.length := by
  cases words with
  | nil => simp [take, Taken.rest?] at h
  | cons header tail =>
    simp only [take] at h
    split at h
    · obtain rfl := Option.some.inj h
      simp
    · exact Nat.lt_succ_of_le (takePayload_rest_le h)
    · split at h
      · exact Nat.lt_succ_of_le (takePayload_rest_le h)
      · have := takePayload_rest_le h
        simp only [List.length_cons]
        omega
      · simp [Taken.rest?] at h
    · obtain rfl := Option.some.inj h
      simp

/-- The packets of a run of words, put after `done`, which holds the packets before them in
reverse. Reading ends at the first incomplete packet. -/
def decodeOnto (done : List (Packet f)) (previous : Option (Packet f)) (words : List Word) :
    List (Packet f) :=
  match _ : take previous words with
  | .packet p rest => decodeOnto (p :: done) (some p) rest
  | .skipped rest => decodeOnto done previous rest
  | .incomplete => done.reverse
termination_by words.length
decreasing_by all_goals exact take_rest_lt (by rw [‹take previous words = _›]; rfl)

/-- The packets of a run of words. -/
def decodeAll (words : List Word) : List (Packet f) := decodeOnto [] none words

/-- The words of a packet stream behind the family's sync header. -/
def encodeAll (packets : List (Packet f)) : List Word :=
  f.syncHeader ++ packets.flatMap words

end Packet

namespace Family

variable (f : Family)

/-- The stream words that bytes spell. Bytes that do not fill a word are dropped. -/
def wordsOfBytes (bytes : List UInt8) : List Word :=
  (BigEndianView.mk (n := f.wordBytes) bytes).toList.map (·.setWidth 32)

/-- The bytes of stream words, each cut to the width of the family's words. -/
def bytesOfWords (words : List Word) : List UInt8 :=
  BigEndian.wordsToBytes f.wordBytes (words.map (·.setWidth (8 * f.wordBytes)))

end Family

/-- The bytes of packets behind the family's sync header. -/
def Packet.encodeBytes {f : Family} (packets : List (Packet f)) : List UInt8 :=
  f.bytesOfWords (Packet.encodeAll packets)

/-- The bytes that mark the start of a packet stream. -/
def syncWord : List UInt8 := [0xAA, 0x99, 0x55, 0x66]

/-- The bytes behind the first sync word. -/
def afterSyncWord? : List UInt8 → Option (List UInt8)
  | [] => none
  | byte :: rest =>
    if (byte :: rest).take syncWord.length = syncWord then
      some ((byte :: rest).drop syncWord.length)
    else afterSyncWord? rest

/-- The words behind a sync word. -/
structure PacketStream (f : Family) where
  words : List Word
  deriving DecidableEq, Repr

namespace PacketStream

variable {f : Family}

/-- The stream in a run of bytes, if it holds the sync word. -/
def ofBytes? (bytes : List UInt8) : Option (PacketStream f) :=
  (afterSyncWord? bytes).map fun rest => ⟨f.wordsOfBytes rest⟩

/-- The packets of a stream. -/
def packets (stream : PacketStream f) : List (Packet f) := Packet.decodeAll stream.words

end PacketStream

end FpgaBitstream
