import FpgaBitstream.Proofs.BitSerial

/-!
# Putting in the CRC check

The check goes in front of the last command that ends the stream (`Packet.insertCrcCheck?_append`),
and nothing else is changed.  The value written is the one that the packets in front of it leave
behind; the write itself counts neither for the CRC nor in a replay, and it ends no stream.  So the
CRC at the end and the frames that are replayed stay the same, and a second check would say the same
as the first (`Packet.insertCrcCheck?_neutral`).
-/

namespace FpgaBitstream

variable {f : Family}

/-! ## The value -/

namespace Crc

/-- A write for the CRC is not taken in. -/
theorem updatePacket_writeCrc (value : Word) (data : List Word) :
    updatePacket value (.write (.crc f) data) = value := by
  cases f <;> rfl

/-- Nor does it count for the CRC of the packets around it. -/
theorem ofPackets_writeCrc (front back : List (Packet f)) (data : List Word) :
    ofPackets (front ++ .write (.crc f) data :: back) = ofPackets (front ++ back) := by
  rw [ofPackets_append, ofPackets_append, List.foldl_cons, updatePacket_writeCrc]

end Crc

namespace Packet

/-! ## The place -/

theorem isDesync_iff {p : Packet f} : p.isDesync = true ↔ p.WritesCommand .desync := by
  simp only [isDesync, Bool.and_eq_true, decide_eq_true_eq]
  constructor
  · rintro ⟨⟨hwrite, hregister⟩, hhead⟩
    exact ⟨hwrite, hregister, hhead⟩
  · intro h
    exact ⟨⟨h.opcode, h.register⟩, h.head⟩

theorem isDesync_eq_false_iff {p : Packet f} :
    p.isDesync = false ↔ ¬ p.WritesCommand .desync := by
  rw [← isDesync_iff, Bool.not_eq_true]

/-- Among elements that satisfy a test there is a last one. -/
theorem exists_last {α : Type} {P : α → Prop} {elements : List α} (h : ∃ x ∈ elements, P x) :
    ∃ before found after, elements = before ++ found :: after ∧ P found ∧
      ∀ x ∈ after, ¬ P x := by
  induction elements with
  | nil =>
    obtain ⟨x, hmem, -⟩ := h
    exact absurd hmem List.not_mem_nil
  | cons first rest ih =>
    by_cases hrest : ∃ x ∈ rest, P x
    · obtain ⟨before, found, after, rfl, hfound, hafter⟩ := ih hrest
      exact ⟨first :: before, found, after, rfl, hfound, hafter⟩
    · obtain ⟨x, hmem, hx⟩ := h
      rcases List.mem_cons.1 hmem with rfl | hmem
      · exact ⟨[], x, rest, rfl, hx, fun y hy hP => hrest ⟨y, hy, hP⟩⟩
      · exact absurd ⟨x, hmem, hx⟩ hrest

theorem splitAtLast?_eq_none {α : Type} {test : α → Bool} {elements : List α}
    (h : ∀ x ∈ elements, test x = false) : splitAtLast? test elements = none := by
  cases hsplit : splitAtLast? test elements with
  | none => rfl
  | some result =>
    obtain ⟨found, after, -, hfound, rfl⟩ := splitAtLast?_eq hsplit
    rw [h found (List.mem_append_right _ List.mem_cons_self)] at hfound
    cases hfound

/-! ## The packets with the check -/

/-- **The check stands in front of the last command** that ends the stream. -/
theorem insertCrcCheck?_append (hwide : f.hasWideWords = true) (before : List (Packet f))
    {p : Packet f} (hp : p.WritesCommand .desync) {after : List (Packet f)}
    (hafter : ∀ q ∈ after, ¬ q.WritesCommand .desync) :
    insertCrcCheck? (before ++ p :: after) =
      some (Crc.ofPackets before,
        before ++ write (.crc f) [Crc.ofPackets before] :: p :: after) := by
  have hlast : splitAtLast? isDesync (before ++ p :: after) = some (before, p :: after) :=
    splitAtLast?_append (isDesync_iff.2 hp) fun q hq => isDesync_eq_false_iff.2 (hafter q hq)
  rw [insertCrcCheck?, if_pos hwide, hlast]
  rfl

theorem insertCrcCheck?_eq_none {packets : List (Packet f)}
    (h : f.hasWideWords = false ∨ ∀ p ∈ packets, ¬ p.WritesCommand .desync) :
    insertCrcCheck? packets = none := by
  unfold insertCrcCheck?
  rcases h with hnarrow | hnone
  · rw [hnarrow, if_neg Bool.false_ne_true]
  · have hsplit : splitAtLast? isDesync packets = none :=
      splitAtLast?_eq_none fun p hp => isDesync_eq_false_iff.2 (hnone p hp)
    rw [hsplit, Option.map_none, ite_self]

/-- **The CRC check is sound and touches nothing else.**  Where the stream of a family with wide
words is ended by a command, one write is put in front of the last one: that of the value which the
packets before it leave behind.  All other packets are kept, the CRC and the replay of the whole
stay the same, and a second check would have the same value.  In any other case nothing is put in
and the packets stay as they are. -/
theorem insertCrcCheck?_neutral (packets : List (Packet f)) :
    (f.hasWideWords = true → (∃ p ∈ packets, p.WritesCommand .desync) →
      ∃ before p after value,
        packets = before ++ p :: after ∧ p.WritesCommand .desync ∧
          (∀ q ∈ after, ¬ q.WritesCommand .desync) ∧
        value = Crc.ofPackets before ∧
        insertCrcCheck? packets = some (value, withCrcCheck packets) ∧
        withCrcCheck packets = before ++ write (.crc f) [value] :: p :: after ∧
        Crc.ofPackets (withCrcCheck packets) = Crc.ofPackets packets ∧
        (∀ part, replay part (withCrcCheck packets) = replay part packets) ∧
        insertCrcCheck? (withCrcCheck packets) =
          some (value, withCrcCheck (withCrcCheck packets))) ∧
    ((f.hasWideWords = false ∨ ∀ p ∈ packets, ¬ p.WritesCommand .desync) →
      insertCrcCheck? packets = none ∧ withCrcCheck packets = packets) := by
  constructor
  · intro hwide hdesync
    obtain ⟨before, p, after, rfl, hp, hafter⟩ := exists_last hdesync
    have hinsert := insertCrcCheck?_append hwide before hp hafter
    have hchecked := withCrcCheck_of_eq_some hinsert
    refine ⟨before, p, after, Crc.ofPackets before, rfl, hp, hafter, rfl, ?_, hchecked, ?_, ?_, ?_⟩
    · rw [hinsert, hchecked]
    · rw [hchecked, Crc.ofPackets_writeCrc]
    · intro part
      rw [hchecked, replay, replay, Package.run_writeCrc]
    · -- the first check stands in front of the second and does not count for it
      have hagain := insertCrcCheck?_append hwide
        (before ++ [write (.crc f) [Crc.ofPackets before]]) hp hafter
      rw [Crc.ofPackets_writeCrc before [] [Crc.ofPackets before], List.append_nil,
        List.append_assoc, List.append_assoc, List.singleton_append, List.singleton_append,
        ← hchecked] at hagain
      rw [hagain, withCrcCheck_of_eq_some hagain]
  · intro hnone
    have hinsert := insertCrcCheck?_eq_none hnone
    exact ⟨hinsert, withCrcCheck_of_eq_none hinsert⟩

/-- A stream that is ended twice, with a reset of the running value in between. -/
def endedTwice : List (Packet .series7) :=
  [write (.idcode _) [0x0362D093], command _ .desync, command _ .resetCrc, write (.mask _) [0x501],
    write (.command _) [Command.desync.raw, 0], nop _]

theorem insertCrcCheck?_neutral_endedTwice :
    Crc.ofPackets (withCrcCheck endedTwice) = Crc.ofPackets endedTwice ∧
      (∀ part, replay part (withCrcCheck endedTwice) = replay part endedTwice) ∧
      withCrcCheck [command .spartan6 .desync] = [command .spartan6 .desync] := by
  have hdesync : ∃ p ∈ endedTwice, p.WritesCommand .desync := by decide
  obtain ⟨-, -, -, -, -, -, -, -, -, -, hcrc, hreplay, -⟩ :=
    (insertCrcCheck?_neutral endedTwice).1 rfl hdesync
  have hnarrow := (insertCrcCheck?_neutral [command .spartan6 .desync]).2 (.inl rfl)
  exact ⟨hcrc, hreplay, hnarrow.2⟩

end Packet
end FpgaBitstream
