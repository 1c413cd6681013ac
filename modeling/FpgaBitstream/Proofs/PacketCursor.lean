import FpgaBitstream.Proofs.PacketBounds

/-!
# Going through the packets of a run

A cursor yields the packets of a run of words one at a time (`PacketCursor.next_after`): it ends on
every run, with no more packets than words, and stays at its end.  The words of the packets are
stretches of the run, each behind the one before (`Packet.stretches`), and each as long as it takes
to write the packet.
-/

namespace FpgaBitstream

variable {f : Family}

namespace PacketCursor

section Next
variable {c : PacketCursor f} {p : Packet f} {rest : List Word}

/-- Reading goes on behind the words that were taken. -/
theorem next_of_parse {packet : Option (Packet f)}
    (h : Packet.parse c.previous c.words = (rest, packet)) (hlt : rest.length < c.words.length) :
    c.next = match packet with
      | some p => (some p, ⟨rest, some p⟩)
      | none => next { c with words := rest } := by
  have hne : ¬ c.words.isEmpty := by
    rw [List.isEmpty_iff_length_eq_zero]
    omega
  rw [next, if_neg hne]
  split
  next rest' packet' hparse =>
    obtain ⟨rfl, rfl⟩ := Prod.mk.inj (h.symm.trans hparse)
    cases packet <;> exact if_neg (Nat.ne_of_lt hlt)

theorem next_of_packet (h : Packet.take c.previous c.words = .packet p rest) :
    c.next = (some p, ⟨rest, some p⟩) := by
  have hparse : Packet.parse c.previous c.words = (rest, some p) := by
    rw [Packet.parse, h]
    rfl
  exact next_of_parse hparse (Packet.take_rest_lt (by rw [h]; rfl))

theorem next_of_skipped (h : Packet.take c.previous c.words = .skipped rest) :
    c.next = next { c with words := rest } := by
  have hparse : Packet.parse c.previous c.words = (rest, none) := by
    rw [Packet.parse, h]
    rfl
  exact next_of_parse hparse (Packet.take_rest_lt (by rw [h]; rfl))

/-- Where as many words are left as there were, reading ends. -/
theorem next_of_incomplete (h : Packet.take c.previous c.words = .incomplete) :
    c.next = (none, { c with words := [] }) := by
  rw [next]
  by_cases hempty : c.words.isEmpty
  · rw [if_pos hempty, ← List.isEmpty_iff.1 hempty]
  · have hparse : Packet.parse c.previous c.words = (c.words, none) := by
      rw [Packet.parse, h]
      rfl
    rw [if_neg hempty]
    split
    next rest' packet' hparse' =>
      obtain ⟨rfl, rfl⟩ := Prod.mk.inj (hparse.symm.trans hparse')
      rw [if_pos rfl]

end Next

/-- The packets that are still to come. -/
def packets (c : PacketCursor f) : List (Packet f) := Packet.decodeAfter c.previous c.words

theorem packets_nil (previous : Option (Packet f)) : packets ⟨[], previous⟩ = [] :=
  Packet.decodeOnto_of_incomplete rfl []

/-- **The next packet** is the first of those still to come, and the others come behind it. -/
theorem next_eq (c : PacketCursor f) :
    c.next.1 = c.packets.head? ∧ c.next.2.packets = c.packets.tail := by
  obtain ⟨words, previous⟩ := c
  induction previous, words using Packet.decode_induction with
  | packet previous own p rest h ih =>
    rw [next_of_packet (h.whole rest), packets, h.decodeAfter_packet]
    exact ⟨rfl, rfl⟩
  | passed previous own rest h ih =>
    rw [next_of_skipped (h.whole rest), packets, packets, h.decodeAfter_skipped]
    exact ih
  | last previous words h =>
    have hnext : (next ⟨words, previous⟩) = (none, ⟨[], previous⟩) := by
      have htake := h words.length
      rw [List.take_length] at htake
      rcases htake with htake | htake
      · exact next_of_incomplete htake
      · rw [next_of_skipped htake]
        exact next_of_incomplete rfl
    rw [hnext, packets_nil, packets, h.decodeAfter]
    exact ⟨rfl, rfl⟩

/-- The cursor after a number of calls. -/
def after (c : PacketCursor f) : Nat → PacketCursor f
  | 0 => c
  | calls + 1 => (c.after calls).next.2

theorem packets_after (c : PacketCursor f) (calls : Nat) :
    (c.after calls).packets = c.packets.drop calls := by
  induction calls with
  | zero => rfl
  | succ calls ih => rw [after, (next_eq _).2, ih, List.tail_drop]

/-- **Each call** yields the packet with its number, or none. -/
theorem next_after (c : PacketCursor f) (calls : Nat) :
    (c.after calls).next.1 = c.packets[calls]? := by
  rw [(next_eq _).1, packets_after, List.head?_drop]

end PacketCursor

namespace Packet

/-! ## The stretches of a run -/

section Stretches
variable {previous : Option (Packet f)} {words own : List Word} {p : Packet f}

theorem Takes.length_eq (h : Takes previous own (.packet p)) : own.length = p.encodedLength := by
  have htake := h.whole []
  rw [List.append_nil] at htake
  have htook := took previous own
  rw [htake] at htook
  obtain ⟨hle, hdrop⟩ := htook.consumed
  exact Nat.le_antisymm (List.drop_eq_nil_iff.1 hdrop.symm) hle

/-- No more packets than words. -/
theorem length_decodeAfter_le (previous : Option (Packet f)) (words : List Word) :
    (decodeAfter previous words).length ≤ words.length := by
  induction previous, words using decode_induction with
  | packet previous own p rest h ih =>
    have hpos := List.length_pos_iff.2 h.ne_nil
    rw [h.decodeAfter_packet, List.length_cons, List.length_append]
    omega
  | passed previous own rest h ih =>
    rw [h.decodeAfter_skipped, List.length_append]
    omega
  | last previous words h =>
    rw [h.decodeAfter]
    exact Nat.zero_le _

/-- A packet, and the words of a run in front of an index that it is made of. -/
structure Stretch (words : List Word) (p : Packet f) (stop : Nat) : Prop where
  start_le : p.encodedLength ≤ stop
  stop_le : stop ≤ words.length
  data : p.data =
    (words.drop (stop - p.encodedLength + p.headerWords.length)).take p.data.length

theorem EndsAt.stretch {stop : Nat} (h : EndsAt words p stop) : Stretch words p stop := by
  obtain ⟨previous, front, header, rest, rfl, rfl, htakes⟩ := h
  have hlength := htakes.length_eq
  have hheader : header.length = p.headerWords.length := by
    rw [List.length_append, encodedLength] at hlength
    exact Nat.add_right_cancel hlength
  refine ⟨?_, ?_, ?_⟩
  · rw [List.length_append, hlength]
    exact Nat.le_add_left _ _
  · exact (List.prefix_append _ _).length_le
  · rw [List.length_append, hlength, Nat.add_sub_cancel, ← hheader,
      List.append_assoc, List.append_assoc, List.drop_length_add_append, List.drop_left,
      List.take_left]

/-- **The words of a packet** stand behind those of the packets before it. -/
theorem pairwise_stretches (start : Nat) (previous : Option (Packet f)) (words : List Word) :
    (placesAfter start previous words).Pairwise fun a b => a.2 + b.1.encodedLength ≤ b.2 := by
  induction previous, words using decode_induction generalizing start with
  | packet previous own p rest h ih =>
    rw [h.placesAfter_packet]
    refine .cons (fun place hmem => ?_) (ih _)
    obtain ⟨stop, hstop, hends⟩ := endsAt_of_mem_placesAfter hmem
    rw [hstop]
    exact Nat.add_le_add_left hends.stretch.start_le _
  | passed previous own rest h ih =>
    rw [h.placesAfter_skipped]
    exact ih _
  | last previous words h =>
    rw [h.placesAfter]
    exact .nil

end Stretches

end Packet

/-! ## Every run -/

/-- What a cursor yields, call by call: the packets of some places of its run, no more than the run
has words, and nothing once there was nothing.  Their words are stretches of the run that do not
overlap and come in the order of the calls. -/
structure PacketCursor.Yields (c : PacketCursor f) (places : List (Packet f × Nat)) : Prop where
  next (calls : Nat) : (c.after calls).next.1 = (places.map (·.1))[calls]?
  length_le : places.length ≤ c.words.length
  ended {calls : Nat} (h : (c.after calls).next.1 = none) {later : Nat} (hlater : calls ≤ later) :
    (c.after later).next.1 = none
  stretches : ∀ place ∈ places, Packet.Stretch c.words place.1 place.2
  ordered : places.Pairwise fun a b => a.2 + b.1.encodedLength ≤ b.2

theorem PacketCursor.yields_places (c : PacketCursor f) :
    c.Yields (Packet.placesAfter 0 c.previous c.words) := by
  have hpackets : (Packet.placesAfter 0 c.previous c.words).map (·.1) = c.packets :=
    Packet.map_fst_placesAfter 0 c.previous c.words
  refine ⟨fun calls => ?_, ?_, fun h later hlater => ?_, fun place hmem => ?_,
    Packet.pairwise_stretches 0 c.previous c.words⟩
  · rw [hpackets, next_after]
  · rw [← List.length_map (f := (·.1)), hpackets]
    exact Packet.length_decodeAfter_le c.previous c.words
  · rw [next_after, List.getElem?_eq_none_iff] at h ⊢
    exact Nat.le_trans h hlater
  · obtain ⟨stop, hstop, hends⟩ := Packet.endsAt_of_mem_placesAfter hmem
    rw [hstop, Nat.zero_add]
    exact hends.stretch

open Packet in
/-- **Reading packets stays within the run, goes on, and takes just what it yields.** -/
theorem reading_within_bounds (f : Family) :
    (∀ (previous : Option (Packet f)) (words : List Word),
      Checked.parse? previous words = some (parse previous words) ∧
        ReadsFront words (parse previous words)) ∧
    (∀ c : PacketCursor f, c.Yields (placesAfter 0 c.previous c.words)) ∧
    ∀ (stream : PacketStream f) (calls : Nat),
      (stream.cursor.after calls).next.1 = stream.packets[calls]? :=
  ⟨fun previous words => ⟨Checked.parse?_eq previous words, readsFront_parse previous words⟩,
    PacketCursor.yields_places, fun stream => stream.cursor.next_after⟩

end FpgaBitstream
