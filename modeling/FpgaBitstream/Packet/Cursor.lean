import FpgaBitstream.Packet.Stream

/-!
# Reading packets one at a time

`Packet.parse` reads one packet from the front of a run of words and hands back the words that are
left. A `PacketCursor` goes through a run: `next` reads on up to the next packet, and ends where as
many words are left as there were.
-/

namespace FpgaBitstream

namespace Packet

variable {f : Family}

/-- The words that are left of a run, and the packet if one was taken. All words are left where
there were too few. -/
def Taken.outcome (words : List Word) : Taken f → List Word × Option (Packet f)
  | packet p rest => (rest, some p)
  | skipped rest => (rest, none)
  | incomplete => (words, none)

/-- Reads one packet from the front of a run of words. -/
def parse (previous : Option (Packet f)) (words : List Word) : List Word × Option (Packet f) :=
  (take previous words).outcome words

theorem parse_rest_le (previous : Option (Packet f)) (words : List Word) :
    (parse previous words).1.length ≤ words.length := by
  rw [parse]
  cases htake : take previous words with
  | packet p rest => exact Nat.le_of_lt (take_rest_lt (by rw [htake]; rfl))
  | skipped rest => exact Nat.le_of_lt (take_rest_lt (by rw [htake]; rfl))
  | incomplete => exact Nat.le_refl _

end Packet

/-- The words that are still to be read, and the packet that was read last. -/
structure PacketCursor (f : Family) where
  words : List Word
  previous : Option (Packet f)
  deriving DecidableEq, Repr

namespace PacketCursor

variable {f : Family}

/-- The next packet, and the cursor behind it. Words that make up no packet are passed over, and
none is left behind the last packet. -/
def next (c : PacketCursor f) : Option (Packet f) × PacketCursor f :=
  if c.words.isEmpty then (none, c)
  else
    match _ : Packet.parse c.previous c.words with
    | (rest, packet) =>
      if rest.length = c.words.length then (none, { c with words := [] })
      else
        match packet with
        | some p => (some p, ⟨rest, some p⟩)
        | none => next { c with words := rest }
termination_by c.words.length
decreasing_by
  have hle := Packet.parse_rest_le c.previous c.words
  rw [‹Packet.parse c.previous c.words = _›] at hle
  exact Nat.lt_of_le_of_ne hle ‹_›

end PacketCursor

/-- The cursor in front of a stream. -/
def PacketStream.cursor {f : Family} (stream : PacketStream f) : PacketCursor f :=
  ⟨stream.words, none⟩

end FpgaBitstream
