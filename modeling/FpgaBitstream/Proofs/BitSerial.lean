import FpgaBitstream.Proofs.Crc

/-!
# The CRC bit by bit

An update shifts 37 bits through the register of CRC-32C, the bits of the data word first and then
those of the register address (`Crc.update_eq_serial`).  The 64-bit register that it works in holds
what the narrow one holds after every shift (`Crc.shiftIn_eq_serial`), so nothing is cut off at the
end.  A register tells apart all messages of up to 32 bits (`Crc.serial_lowBits_injective`), hence
an update tells apart data words, running values and the low five bits of addresses.

Packets that do not reset the value lose nothing of it (`Crc.foldl_updatePacket_injective`), so one
changed word of a write is seen in the CRC at the end, however much is written behind it
(`Crc.update_serial`).
-/

namespace FpgaBitstream

/-- A write of a command, with whatever words behind it. -/
structure Packet.WritesCommand {f : Family} (p : Packet f) (c : Command) : Prop where
  opcode : p.opcode = .write
  register : p.register = .command f
  head : p.data.head? = some c.raw

instance {f : Family} (p : Packet f) (c : Command) : Decidable (p.WritesCommand c) :=
  decidable_of_iff (p.opcode = .write ∧ p.register = .command f ∧ p.data.head? = some c.raw)
    ⟨fun ⟨h₁, h₂, h₃⟩ => ⟨h₁, h₂, h₃⟩, fun ⟨h₁, h₂, h₃⟩ => ⟨h₁, h₂, h₃⟩⟩

namespace Crc

/-! ## A message bit by bit -/

/-- The generator of CRC-32C, with the highest power left out. -/
def generator : Word := 0x1EDC6F41

theorem reverse_generator : generator.reverse = polynomial := by decide +kernel

/-- The register of a CRC that takes the lowest bits first, one bit of the message later. -/
def serialStep (crc : Word) (bit : Bool) : Word :=
  if bit != crc.getLsbD 0 then (crc >>> 1) ^^^ generator.reverse else crc >>> 1

/-- The register behind a message. -/
def serial (start : Word) (message : List Bool) : Word := message.foldl serialStep start

/-- The low bits of a word, the lowest first. -/
def lowBits {w : Nat} (count : Nat) (word : BitVec w) : List Bool :=
  (List.range count).map word.getLsbD

/-- The bits of an update: a data word, then the low end of the register address. -/
def messageBits (register data : Word) : List Bool := lowBits 32 data ++ lowBits 5 register

theorem length_messageBits (register data : Word) :
    (messageBits register data).length = updateBits := by
  simp [messageBits, lowBits, updateBits]

/-- The bits of an update as one word, the register address above the data. -/
def message (register data : Word) : BitVec 64 :=
  (register.setWidth 64 <<< 32) ||| data.setWidth 64

theorem serial_append (start : Word) (front back : List Bool) :
    serial start (front ++ back) = serial (serial start front) back :=
  List.foldl_append

theorem lowBits_succ {w : Nat} (count : Nat) (word : BitVec w) :
    lowBits (count + 1) word = word.getLsbD 0 :: lowBits count (word >>> 1) := by
  rw [lowBits, List.range_succ_eq_map, List.map_cons, List.map_map]
  refine congrArg _ (List.map_congr_left fun i _ => ?_)
  rw [BitVec.getLsbD_ushiftRight, Nat.add_comm]
  rfl

/-- The message of an update holds its bits. -/
theorem lowBits_message (register data : Word) :
    lowBits updateBits (message register data) = messageBits register data := by
  have hdata : ∀ i < 32, (message register data).getLsbD i = data.getLsbD i := by
    intro i hi
    have hwide : i < 64 := by omega
    rw [message, BitVec.getLsbD_or, BitVec.getLsbD_shiftLeft, BitVec.getLsbD_setWidth]
    simp [hi, hwide]
  have hregister : ∀ i < 5, (message register data).getLsbD (32 + i) = register.getLsbD i := by
    intro i hi
    have hwide : 32 + i < 64 := by omega
    have hbehind : ¬ 32 + i < 32 := by omega
    have hsmall : i < 64 := by omega
    rw [message, BitVec.getLsbD_or, BitVec.getLsbD_shiftLeft,
      narrow_setWidth data _ (Nat.le_add_right 32 i), Nat.add_sub_cancel_left,
      BitVec.getLsbD_setWidth]
    simp [hwide, hbehind, hsmall]
  have hrange : List.range updateBits = List.range 32 ++ (List.range 5).map (32 + ·) := by
    show List.range (32 + 5) = _
    exact List.range_add
  rw [lowBits, hrange, List.map_append, List.map_map, messageBits, lowBits, lowBits]
  congr 1
  · exact List.map_congr_left fun i hi => hdata i (List.mem_range.1 hi)
  · exact List.map_congr_left fun i hi => hregister i (List.mem_range.1 hi)

/-- One shift of the wide register is one step of the narrow one. -/
theorem setWidth_serialStep (crc : Word) (bit : Bool) :
    (if bit != (crc.setWidth 64).getLsbD 0 then crc.setWidth 64 ^^^ feedback
      else crc.setWidth 64) >>> 1 = (serialStep crc bit).setWidth 64 := by
  have hlow : (crc.setWidth 64).getLsbD 0 = crc.getLsbD 0 := by simp
  have hshift : crc.setWidth 64 >>> 1 = (crc >>> 1).setWidth 64 := by
    rw [BitVec.setWidth_ushiftRight (by decide)]
  have hfeedback : feedback >>> 1 = polynomial.setWidth 64 := by decide
  rw [hlow, serialStep, reverse_generator]
  split
  · rw [BitVec.ushiftRight_xor_distrib, hshift, hfeedback, BitVec.setWidth_xor]
  · exact hshift

/-- **The wide register never leaves 32 bits**, and shifts a message in bit by bit. -/
theorem shiftIn_eq_serial (count : Nat) (message : BitVec 64) (crc : Word) :
    shiftIn count message (crc.setWidth 64) = (serial crc (lowBits count message)).setWidth 64 := by
  induction count generalizing message crc with
  | zero => rfl
  | succ count ih =>
    rw [lowBits_succ, serial, List.foldl_cons, ← serial, ← ih, ← setWidth_serialStep]
    rfl

theorem shiftIn_lt (count : Nat) (message : BitVec 64) (crc : Word) :
    (shiftIn count message (crc.setWidth 64)).toNat < 2 ^ 32 := by
  rw [shiftIn_eq_serial, BitVec.toNat_setWidth]
  exact Nat.lt_of_le_of_lt (Nat.mod_le _ _) (BitVec.isLt _)

/-- **An update is the register of CRC-32C** behind 37 bits. -/
theorem update_eq_serial (register data previous : Word) :
    update register data previous = serial previous (messageBits register data) := by
  have hupdate : update register data previous =
      (shiftIn updateBits (message register data) (previous.setWidth 64)).setWidth 32 := rfl
  rw [hupdate, shiftIn_eq_serial, lowBits_message, BitVec.setWidth_setWidth_of_le _ (by decide),
    BitVec.setWidth_eq]

-- the check value of CRC-32C, that of the digits from 1 to 9
example : ~~~ serial 0xFFFFFFFF (("123456789".toList.map fun c => BitVec.ofNat 8 c.toNat).flatMap
    (lowBits 8)) = 0xE3069283 := by decide +kernel

/-! ## The register address -/

theorem Narrow.xor {u v : BitVec 64} (hu : Narrow u) (hv : Narrow v) : Narrow (u ^^^ v) := by
  intro i hi
  rw [BitVec.getLsbD_xor, hu i hi, hv i hi, Bool.xor_false]

theorem Narrow.iterate_injective {u v : BitVec 64} (hu : Narrow u) (hv : Narrow v) {n : Nat}
    (h : Crc.shift^[n] u = Crc.shift^[n] v) : u = v := by
  have hzero : Crc.shift^[n] (u ^^^ v) = 0 := by
    rw [iterate_shift_xor, h, BitVec.xor_self]
    rfl
  exact BitVec.xor_eq_zero_iff.1 ((hu.xor hv).eq_zero_of_iterate hzero)

theorem lowBits_eq_iff {w w' count : Nat} {u : BitVec w} {v : BitVec w'} :
    lowBits count u = lowBits count v ↔ u.toNat % 2 ^ count = v.toNat % 2 ^ count := by
  constructor
  · intro h
    refine Nat.eq_of_testBit_eq fun i => ?_
    rw [Nat.testBit_mod_two_pow, Nat.testBit_mod_two_pow]
    by_cases hi : i < count
    · have hbit := List.map_inj_left.1 h i (List.mem_range.2 hi)
      rw [BitVec.testBit_toNat, BitVec.testBit_toNat, hbit]
    · rw [decide_eq_false hi, Bool.false_and, Bool.false_and]
  · intro h
    refine List.map_congr_left fun i hi => ?_
    have hbit := congrArg (·.testBit i) h
    simp only [Nat.testBit_mod_two_pow, List.mem_range.1 hi, decide_true, Bool.true_and] at hbit
    exact hbit

/-- **A register tells apart** the messages of the same number of bits, up to its own width. -/
theorem serial_lowBits_injective {count : Nat} (hcount : count ≤ 32) {crc u v : Word}
    (h : serial crc (lowBits count u) = serial crc (lowBits count v)) :
    u.toNat % 2 ^ count = v.toNat % 2 ^ count := by
  have hsmall : 2 ^ count ≤ 2 ^ 32 := Nat.pow_le_pow_right (by decide) hcount
  have hlt (word : Word) : word.toNat % 2 ^ count < 2 ^ count :=
    Nat.mod_lt _ (Nat.two_pow_pos count)
  -- the message on its own, with nothing behind the bits that are shifted in
  obtain ⟨low, hlow⟩ : ∃ low : Word → BitVec 64,
      ∀ word, (low word).toNat = word.toNat % 2 ^ count :=
    ⟨fun word => BitVec.ofNat 64 (word.toNat % 2 ^ count), fun word => by
      have := hlt word
      rw [BitVec.toNat_ofNat, Nat.mod_eq_of_lt (by omega)]⟩
  have hnarrow (word : Word) : Narrow (low word) := by
    intro i hi
    rw [← BitVec.testBit_toNat, hlow]
    refine Nat.testBit_lt_two_pow (Nat.lt_of_lt_of_le (hlt word) ?_)
    exact Nat.le_trans hsmall (Nat.pow_le_pow_right (by decide) hi)
  have hshifted (word : Word) :
      (serial crc (lowBits count word)).setWidth 64 = shift^[count] (low word ^^^ crc.setWidth 64) := by
    have hbits : lowBits count word = lowBits count (low word) := by
      rw [lowBits_eq_iff, hlow, Nat.mod_mod]
    have hrest : low word >>> count = 0 := by
      refine BitVec.eq_of_toNat_eq ?_
      rw [BitVec.toNat_ushiftRight, Nat.shiftRight_eq_div_pow, hlow, Nat.div_eq_of_lt (hlt word)]
      rfl
    rw [hbits, ← shiftIn_eq_serial, shiftIn_eq, hrest]
    exact BitVec.xor_zero
  have hsums : low u ^^^ crc.setWidth 64 = low v ^^^ crc.setWidth 64 := by
    have hcrc := narrow_setWidth crc
    refine Narrow.iterate_injective ((hnarrow u).xor hcrc) ((hnarrow v).xor hcrc) (n := count) ?_
    rw [← hshifted, ← hshifted, h]
  rw [← hlow, ← hlow, (BitVec.xor_left_inj _).1 hsums]

/-- The address of the register counts up to its low five bits. -/
theorem update_eq_iff_register {register register' data previous : Word} :
    update register data previous = update register' data previous ↔
      register.toNat % 32 = register'.toNat % 32 := by
  rw [update_eq_serial, update_eq_serial, messageBits, messageBits, serial_append, serial_append]
  constructor
  · exact serial_lowBits_injective (by decide)
  · intro h
    have hlow : lowBits 5 register = lowBits 5 register' := lowBits_eq_iff.2 h
    rw [hlow]

/-! ## Packets -/

section Packets
variable {f : Family}

/-- A write to a register that is not set apart takes in all its words. -/
theorem updatePacket_of_role {p : Packet f} (hwrite : p.opcode = .write)
    (hcrc : p.register.role ≠ .crc) (hcommand : p.register.role ≠ .command) (value : Word) :
    updatePacket value p =
      p.data.foldl (fun value word => update p.register.raw word value) value := by
  unfold updatePacket
  rw [if_pos hwrite]
  split
  case h_1 hrole => exact absurd hrole hcrc
  case h_2 hrole => exact absurd hrole hcommand
  case h_3 => rfl

/-- **A packet that does not reset the value** loses nothing of it. -/
theorem updatePacket_injective {p : Packet f} (h : ¬ p.WritesCommand .resetCrc) :
    Function.Injective fun value => updatePacket value p := by
  intro u v heq
  simp only [updatePacket] at heq
  split at heq
  case isFalse => exact heq
  case isTrue hwrite =>
    split at heq
    case h_1 => exact heq
    case h_3 => exact foldl_update_injective _ _ heq
    case h_2 hrole =>
      have hregister : p.register = .command f := by
        apply Register.eq_of_role_eq
        · rw [hrole]
          cases f <;> rfl
        · cases f <;> decide
      have hhead : p.data.head? ≠ some Command.resetCrc.raw :=
        fun hhead => h ⟨hwrite, hregister, hhead⟩
      rw [if_neg hhead, if_neg hhead] at heq
      exact foldl_update_injective _ _ heq

/-- **A run of packets without a reset** loses nothing of the value in front of it. -/
theorem foldl_updatePacket_injective {packets : List (Packet f)}
    (h : ∀ p ∈ packets, ¬ p.WritesCommand .resetCrc) :
    Function.Injective fun value => packets.foldl updatePacket value := by
  induction packets with
  | nil => exact fun _ _ heq => heq
  | cons p rest ih =>
    intro u v heq
    apply updatePacket_injective (h p List.mem_cons_self)
    exact ih (fun q hq => h q (List.mem_cons_of_mem _ hq)) heq

/-- **One changed word of a write** changes the CRC, up to the next reset. -/
theorem ofPackets_ne {before after : List (Packet f)} {p : Packet f} {front back : List Word}
    {w w' : Word} (hwrite : p.opcode = .write) (hcrc : p.register.role ≠ .crc)
    (hcommand : p.register.role ≠ .command) (hne : w ≠ w')
    (hafter : ∀ q ∈ after, ¬ q.WritesCommand .resetCrc) :
    ofPackets (before ++ { p with data := front ++ w :: back } :: after) ≠
      ofPackets (before ++ { p with data := front ++ w' :: back } :: after) := by
  intro heq
  rw [ofPackets_append, ofPackets_append, List.foldl_cons, List.foldl_cons] at heq
  have hvalues := foldl_updatePacket_injective hafter heq
  have hdata (data : List Word) : updatePacket (ofPackets before) { p with data } =
      data.foldl (fun value word => update p.register.raw word value) (ofPackets before) :=
    updatePacket_of_role (p := { p with data }) hwrite hcrc hcommand _
  simp only [hdata] at hvalues
  exact foldl_update_ne hne hvalues

end Packets

/-- **The CRC of the configuration logic.**  An update is the reflected CRC-32C of the 37 bits of
the data word and the register address, started from the running value, and its wide register never
holds more than 32 bits.  It tells apart the data words, the running values and the addresses up to
their low five bits.  So two runs of packets that differ in one word of one write, other than to the
registers for the CRC and the commands, and in which no reset follows, have different CRCs. -/
theorem update_serial (f : Family) :
    (∀ register data previous : Word,
      (messageBits register data).length = 37 ∧
      update register data previous = serial previous (messageBits register data) ∧
      ∀ count, (shiftIn count (message register data) (previous.setWidth 64)).toNat < 2 ^ 32) ∧
    (∀ register previous, Function.Injective fun data => update register data previous) ∧
    (∀ register data, Function.Injective fun previous => update register data previous) ∧
    (∀ register register' data previous,
      update register data previous = update register' data previous ↔
        register.toNat % 32 = register'.toNat % 32) ∧
    ∀ (before after : List (Packet f)) (p : Packet f) (front back : List Word) (w w' : Word),
      p.opcode = .write → p.register.role ≠ .crc → p.register.role ≠ .command → w ≠ w' →
      (∀ q ∈ after, ¬ q.WritesCommand .resetCrc) →
        ofPackets (before ++ { p with data := front ++ w :: back } :: after) ≠
          ofPackets (before ++ { p with data := front ++ w' :: back } :: after) := by
  refine ⟨fun register data previous => ⟨?_, ?_, ?_⟩, ?_, ?_, ?_, ?_⟩
  · exact length_messageBits register data
  · exact update_eq_serial register data previous
  · intro count
    exact shiftIn_lt count _ previous
  · intro register previous data data' h
    exact (BitVec.xor_left_inj previous).1 (update_eq_iff.1 h)
  · intro register data previous previous' h
    exact (BitVec.xor_right_inj data).1 (update_eq_iff.1 h)
  · intro register register' data previous
    exact update_eq_iff_register
  · intro before after p front back w w' hwrite hcrc hcommand hne hafter
    exact ofPackets_ne hwrite hcrc hcommand hne hafter

/-- Packets behind frame data: a write for the CRC, another command, and a reset that is only
read. -/
def behindData : List (Packet .series7) :=
  [.write (.crc _) [0x1234], .command _ .lastFrame, ⟨.type1, .read, .command _, [0x07]⟩]

theorem update_serial_behindData :
    ofPackets (.command _ .resetCrc ::
        .longWrite (.frameDataInput _) [1, 2, 3] :: behindData) ≠
      ofPackets (.command _ .resetCrc ::
        .longWrite (.frameDataInput _) [1, 7, 3] :: behindData) := by
  obtain ⟨-, -, -, -, hchanged⟩ := update_serial .series7
  have hafter : ∀ q ∈ behindData, ¬ q.WritesCommand .resetCrc := by decide
  exact hchanged [.command _ .resetCrc] behindData (.longWrite (.frameDataInput _) []) [1] [3] 2 7
    rfl (by decide) (by decide) (by decide) hafter

end Crc
end FpgaBitstream
