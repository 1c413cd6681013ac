import FpgaBitstream.Proofs.Decoding

/-!
# What stands in front of a stream

Reading begins behind the first sync word, whatever comes before it
(`PacketStream.leadingBytes_passedOver`).  No beginning of the sync word is also its end
(`not_take_isSuffix_syncWord`), so an occurrence that starts among the bytes in front of a sync word
cannot reach into it: it lies among those bytes as a whole (`syncWord_isInfix_of_isPrefix_drop`),
also where they end with a part of the sync word.  The words are counted from the byte behind the
sync word on, and bytes at the end that do not fill a word are no part of them.
-/

namespace FpgaBitstream

variable {f : Family}

/-! ## Occurrences of the sync word -/

/-- **The sync word does not overlap itself.** -/
theorem not_take_isSuffix_syncWord :
    ∀ k < syncWord.length, 0 < k → ¬ syncWord.take k <:+ syncWord := by
  decide

/-- A sync word that starts in front of another one lies in front of it as a whole. -/
theorem syncWord_isInfix_of_isPrefix_drop {lead rest : List UInt8} {i : Nat}
    (h : syncWord <+: (lead ++ syncWord ++ rest).drop i) (hi : i < lead.length) :
    syncWord <:+: lead := by
  rw [List.append_assoc, List.drop_append_of_le_length (Nat.le_of_lt hi)] at h
  have hlength : (lead.drop i).length = lead.length - i := List.length_drop
  by_cases hwithin : syncWord.length ≤ (lead.drop i).length
  · have hprefix : syncWord <+: lead.drop i :=
      List.prefix_of_prefix_length_le h (List.prefix_append _ _) hwithin
    exact hprefix.isInfix.trans (List.drop_suffix i lead).isInfix
  · -- what is left of the bytes in front is a beginning of the sync word, and the second sync word
    -- would have to begin with the rest of it
    have hfront : lead.drop i <+: syncWord :=
      List.prefix_of_prefix_length_le (List.prefix_append _ _) h (Nat.le_of_not_le hwithin)
    obtain ⟨back, hback⟩ := hfront
    have hrest : back <+: syncWord ++ rest := by
      rwa [← List.prefix_append_right_inj (lead.drop i), hback]
    have hsum : (lead.drop i).length + back.length = syncWord.length := by
      rw [← List.length_append, hback]
    have hshort : back.length < syncWord.length := by omega
    have hprefix : back <+: syncWord :=
      List.prefix_of_prefix_length_le hrest (List.prefix_append _ _) (Nat.le_of_lt hshort)
    have hsuffix : back <:+ syncWord := hback ▸ List.suffix_append _ _
    rw [List.prefix_iff_eq_take.1 hprefix] at hsuffix
    exact absurd hsuffix (not_take_isSuffix_syncWord _ hshort (by omega))

/-- Behind bytes without a sync word, the first one is the one that follows them. -/
theorem firstSyncWord_append {lead : List UInt8} (hlead : ¬ syncWord <:+: lead)
    (rest : List UInt8) : FirstSyncWord (lead ++ syncWord ++ rest) lead.length where
  here := by
    rw [List.append_assoc, List.drop_left]
    exact List.prefix_append _ _
  first _ hj hsync := hlead (syncWord_isInfix_of_isPrefix_drop hsync hj)

theorem syncWord_isInfix_iff {bytes : List UInt8} :
    syncWord <:+: bytes ↔ ∃ i, syncWord <+: bytes.drop i := by
  constructor
  · rintro ⟨lead, rest, rfl⟩
    refine ⟨lead.length, ?_⟩
    rw [List.append_assoc, List.drop_left]
    exact List.prefix_append _ _
  · rintro ⟨i, hprefix⟩
    exact hprefix.isInfix.trans (List.drop_suffix i bytes).isInfix

/-! ## Streams -/

theorem Family.wordsOfBytes_append_of_lt {bytes extra : List UInt8}
    (hwhole : f.wordBytes ∣ bytes.length) (hshort : extra.length < f.wordBytes) :
    f.wordsOfBytes (bytes ++ extra) = f.wordsOfBytes bytes := by
  rw [wordsOfBytes, wordsOfBytes, BigEndian.toList_append_of_lt hwhole hshort]

namespace PacketStream

/-- The words of a stream are those behind its sync word. -/
theorem ofBytes?_append {lead : List UInt8} (hlead : ¬ syncWord <:+: lead) (rest : List UInt8) :
    ofBytes? (f := f) (lead ++ syncWord ++ rest) = some ⟨f.wordsOfBytes rest⟩ := by
  have hrest : (lead ++ syncWord ++ rest).drop (lead.length + syncWord.length) = rest := by
    rw [← List.length_append, List.drop_left]
  rw [ofBytes?_of_firstSyncWord (firstSyncWord_append hlead rest), hrest]

/-- **Bytes make up a stream** if and only if there is a sync word among them. -/
theorem ofBytes?_eq_none_iff {bytes : List UInt8} :
    ofBytes? (f := f) bytes = none ↔ ¬ syncWord <:+: bytes := by
  rw [syncWord_isInfix_iff, not_exists]
  constructor
  · intro hnone i hsync
    obtain ⟨first, hfirst⟩ := exists_firstSyncWord hsync
    rw [ofBytes?_of_firstSyncWord hfirst] at hnone
    cases hnone
  · intro hsync
    exact Option.map_eq_none_iff.2 (afterSyncWord?_eq_none hsync)

/-- **Leading bytes are passed over.**  Behind bytes without a sync word, of any number and with any
end, a sync word and what follows it make up the stream that they make up alone, with the same words
and the same packets.  There is no stream only where there is no sync word, and bytes behind a run
of whole words that do not fill another one leave the stream as it is. -/
theorem leadingBytes_passedOver (f : Family) :
    (∀ lead rest : List UInt8, ¬ syncWord <:+: lead →
      ∃ stream stream' : PacketStream f,
        ofBytes? (lead ++ syncWord ++ rest) = some stream ∧
          ofBytes? (syncWord ++ rest) = some stream' ∧
          stream.words = f.wordsOfBytes rest ∧ stream'.words = f.wordsOfBytes rest ∧
          stream.packets = stream'.packets) ∧
    (∀ bytes : List UInt8, ofBytes? (f := f) bytes = none ↔ ¬ syncWord <:+: bytes) ∧
    ∀ lead rest extra : List UInt8, ¬ syncWord <:+: lead → f.wordBytes ∣ rest.length →
      extra.length < f.wordBytes →
        ofBytes? (f := f) (lead ++ syncWord ++ (rest ++ extra)) =
          ofBytes? (lead ++ syncWord ++ rest) := by
  have hnil : ¬ syncWord <:+: [] := by decide
  refine ⟨fun lead rest hlead => ?_, fun bytes => ofBytes?_eq_none_iff,
    fun lead rest extra hlead hwhole hshort => ?_⟩
  · exact ⟨⟨f.wordsOfBytes rest⟩, ⟨f.wordsOfBytes rest⟩, ofBytes?_append hlead rest,
      ofBytes?_append hnil rest, rfl, rfl, rfl⟩
  · rw [ofBytes?_append hlead, ofBytes?_append hlead,
      Family.wordsOfBytes_append_of_lt hwhole hshort]

/-- Bytes that end with most of a sync word. -/
def nearlySynced : List UInt8 := [0x00, 0xAA, 0x99, 0xAA, 0x99, 0x55]

/-- The write of a command, on a family with narrow words, and half a word. -/
theorem leadingBytes_passedOver_nearlySynced :
    (∃ stream stream' : PacketStream .spartan6,
      ofBytes? (nearlySynced ++ syncWord ++ [0x30, 0xA1, 0x00, 0x07]) = some stream ∧
        ofBytes? (syncWord ++ [0x30, 0xA1, 0x00, 0x07]) = some stream' ∧
        stream.words = [0x30A1, 0x0007] ∧ stream'.words = [0x30A1, 0x0007] ∧
        stream.packets = stream'.packets) ∧
    ofBytes? (f := .spartan6) nearlySynced = none ∧
    ofBytes? (f := .spartan6) (nearlySynced ++ syncWord ++ ([0x30, 0xA1, 0x00, 0x07] ++ [0xFF])) =
      ofBytes? (nearlySynced ++ syncWord ++ [0x30, 0xA1, 0x00, 0x07]) := by
  obtain ⟨hlead, hnone, hextra⟩ := leadingBytes_passedOver .spartan6
  have hnearly : ¬ syncWord <:+: nearlySynced := by decide
  exact ⟨hlead nearlySynced [0x30, 0xA1, 0x00, 0x07] hnearly, (hnone nearlySynced).2 hnearly,
    hextra nearlySynced [0x30, 0xA1, 0x00, 0x07] [0xFF] hnearly (by decide) (by decide)⟩

end PacketStream
end FpgaBitstream
