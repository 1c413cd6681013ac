import FpgaBitstream.Proofs.Package

/-!
# The CRC check of a package

Taking in a word is linear: the message and the running value are shifted as one sum
(`Crc.shiftIn_eq`), and no shift of 32 bits loses anything, as the polynomial has its top bit set.
So two words written to the same register give the same value from two running values only if their
sums are the same (`Crc.update_eq_iff`), and payloads that differ in one word only are told apart by
the value behind them, however long they are (`Crc.foldl_update_ne`).

The check of a package is put in behind the commands of the tail that reset the value, so it does
not say anything about the frame data: in every package it is zero (`Package.partialPackage_eq`).
-/

namespace FpgaBitstream

namespace Crc

/-! ## Shifts -/

/-- What a shift adds when the bit that falls out is set. -/
def feedback : BitVec 64 := polynomial.setWidth 64 <<< 1

/-- One shift of the sum of a message and a running value. -/
def shift (sum : BitVec 64) : BitVec 64 := (if sum.getLsbD 0 then sum ^^^ feedback else sum) >>> 1

theorem getLsbD_shift (z : BitVec 64) (i : Nat) :
    (shift z).getLsbD i = (z.getLsbD (1 + i) ^^ (z.getLsbD 0 && feedback.getLsbD (1 + i))) := by
  rw [shift, BitVec.getLsbD_ushiftRight]
  cases z.getLsbD 0 with
  | false => simp
  | true => rw [if_pos rfl, BitVec.getLsbD_xor, Bool.true_and]

theorem shift_xor (u v : BitVec 64) : shift (u ^^^ v) = shift u ^^^ shift v := by
  refine BitVec.eq_of_getLsbD_eq fun i _ => ?_
  simp only [getLsbD_shift, BitVec.getLsbD_xor]
  cases u.getLsbD 0 <;> cases v.getLsbD 0 <;> simp [Bool.xor_left_comm, Bool.xor_comm]

theorem iterate_shift_xor (n : Nat) (u v : BitVec 64) :
    shift^[n] (u ^^^ v) = shift^[n] u ^^^ shift^[n] v := by
  induction n generalizing u v with
  | zero => rfl
  | succ n ih =>
    rw [Function.iterate_succ_apply, shift_xor, ih]
    rfl

/-- The message and the running value are shifted as one. -/
theorem shiftIn_eq (n : Nat) (message crc : BitVec 64) :
    shiftIn n message crc = shift^[n] (message ^^^ crc) ^^^ (message >>> n) := by
  induction n generalizing message crc with
  | zero =>
    rw [shiftIn, Function.iterate_zero_apply, BitVec.ushiftRight_zero, BitVec.xor_comm message,
      BitVec.xor_assoc, BitVec.xor_self, BitVec.xor_zero]
  | succ n ih =>
    have hstep : (message >>> 1) ^^^ ((if message.getLsbD 0 != crc.getLsbD 0 then
        crc ^^^ feedback else crc) >>> 1) = shift (message ^^^ crc) := by
      rw [shift, BitVec.getLsbD_xor, ← BitVec.ushiftRight_xor_distrib]
      cases message.getLsbD 0 <;> cases crc.getLsbD 0 <;> simp [BitVec.xor_assoc]
    have hmessage : message >>> 1 >>> n = message >>> (n + 1) := by
      rw [← BitVec.shiftRight_add, Nat.add_comm]
    rw [shiftIn, ih, Function.iterate_succ_apply, ← hstep, hmessage]
    rfl

/-- A sum of 32 bits. -/
def Narrow (sum : BitVec 64) : Prop := ∀ i, 32 ≤ i → sum.getLsbD i = false

theorem narrow_setWidth (w : Word) : Narrow (w.setWidth 64) := by
  intro i hi
  rw [BitVec.getLsbD_setWidth, BitVec.getLsbD_of_ge _ _ hi, Bool.and_false]

theorem Narrow.shift {z : BitVec 64} (h : Narrow z) : Narrow (shift z) := by
  intro i hi
  have hfeedback : feedback.getLsbD (1 + i) = false := by
    rw [feedback, BitVec.getLsbD_shiftLeft, narrow_setWidth polynomial _ (by omega), Bool.and_false]
  rw [getLsbD_shift, h _ (by omega), hfeedback, Bool.and_false]
  rfl

theorem Narrow.iterate {z : BitVec 64} (h : Narrow z) (n : Nat) : Narrow (Crc.shift^[n] z) := by
  induction n generalizing z with
  | zero => exact h
  | succ n ih => exact ih h.shift

theorem eq_zero_of_bits {z : BitVec 64} (h : ∀ i, z.getLsbD i = false) : z = 0 :=
  BitVec.eq_of_getLsbD_eq fun i _ => (h i).trans BitVec.getLsbD_zero.symm

/-- **No shift of 32 bits loses anything.** -/
theorem Narrow.eq_zero_of_shift {z : BitVec 64} (h : Narrow z) (hzero : Crc.shift z = 0) :
    z = 0 := by
  have hbits : ∀ i, (z.getLsbD (1 + i) ^^ (z.getLsbD 0 && feedback.getLsbD (1 + i))) = false := by
    intro i
    rw [← getLsbD_shift, hzero]
    exact BitVec.getLsbD_zero
  -- the top bit of the polynomial comes from nowhere else
  have hlow : z.getLsbD 0 = false := by
    have htop : feedback.getLsbD (1 + 31) = true := by decide
    have hbit := hbits 31
    rwa [h (1 + 31) (by decide), htop, Bool.false_xor, Bool.and_true] at hbit
  refine eq_zero_of_bits fun i => ?_
  cases i with
  | zero => exact hlow
  | succ i =>
    have hbit := hbits i
    rwa [hlow, Bool.false_and, Bool.xor_false, Nat.add_comm] at hbit

theorem Narrow.eq_zero_of_iterate {z : BitVec 64} (h : Narrow z) {n : Nat}
    (hzero : Crc.shift^[n] z = 0) : z = 0 := by
  induction n generalizing z with
  | zero => exact hzero
  | succ n ih => exact h.eq_zero_of_shift (ih h.shift hzero)

theorem Narrow.eq_zero_of_setWidth {z : BitVec 64} (h : Narrow z) (hzero : z.setWidth 32 = 0) :
    z = 0 := by
  refine eq_zero_of_bits fun i => ?_
  by_cases hi : i < 32
  · have hbit := congrArg (·.getLsbD i) hzero
    simpa [hi] using hbit
  · exact h i (Nat.le_of_not_lt hi)

/-! ## One update -/

/-- The sum of a data word and a running value behind all shifts of an update. -/
def passed (sum : Word) : Word := (shift^[updateBits] (sum.setWidth 64)).setWidth 32

theorem passed_xor (u v : Word) : passed (u ^^^ v) = passed u ^^^ passed v := by
  rw [passed, BitVec.setWidth_xor, iterate_shift_xor, BitVec.setWidth_xor]
  rfl

theorem passed_injective : Function.Injective passed := by
  intro u v h
  have hzero : passed (u ^^^ v) = 0 := by
    rw [passed_xor, h, BitVec.xor_self]
    rfl
  have hnarrow := narrow_setWidth (u ^^^ v)
  have hsum : (u ^^^ v).setWidth 64 = 0 :=
    hnarrow.eq_zero_of_iterate ((hnarrow.iterate _).eq_zero_of_setWidth hzero)
  have hxor : u ^^^ v = 0 := by
    have hback := congrArg (·.setWidth 32) hsum
    simpa using hback
  exact BitVec.xor_eq_zero_iff.1 hxor

/-- What an update adds for the register that is written. -/
def ofRegister (register : Word) : Word :=
  (shift^[updateBits] (register.setWidth 64 <<< 32) ^^^
    ((register.setWidth 64 <<< 32) >>> updateBits)).setWidth 32

/-- An update adds up what the register, the data and the running value leave behind. -/
theorem update_eq (register data previous : Word) :
    update register data previous = ofRegister register ^^^ passed (data ^^^ previous) := by
  have hdata : ∀ i, (data.setWidth 64).getLsbD (updateBits + i) = false :=
    fun i => narrow_setWidth data _ (by rw [updateBits]; omega)
  have hmessage : (register.setWidth 64 <<< 32) ||| data.setWidth 64 =
      (register.setWidth 64 <<< 32) ^^^ data.setWidth 64 := by
    refine BitVec.eq_of_getLsbD_eq fun i _ => ?_
    rw [BitVec.getLsbD_or, BitVec.getLsbD_xor, BitVec.getLsbD_shiftLeft]
    by_cases hi : i < 32
    · simp [hi]
    · simp [narrow_setWidth data i (Nat.le_of_not_lt hi)]
  have hrest : (register.setWidth 64 <<< 32 ^^^ data.setWidth 64) >>> updateBits =
      (register.setWidth 64 <<< 32) >>> updateBits := by
    have hzero : data.setWidth 64 >>> updateBits = 0 := by
      refine eq_zero_of_bits fun i => ?_
      rw [BitVec.getLsbD_ushiftRight, hdata]
    rw [BitVec.ushiftRight_xor_distrib, hzero]
    exact BitVec.xor_zero
  have hswap : ∀ a b c : BitVec 64, a ^^^ b ^^^ c = a ^^^ c ^^^ b := by
    intro a b c
    rw [BitVec.xor_assoc, BitVec.xor_comm b, BitVec.xor_assoc]
  rw [update, hmessage, shiftIn_eq, BitVec.xor_assoc, ← BitVec.setWidth_xor, iterate_shift_xor,
    hrest, hswap, BitVec.setWidth_xor]
  rfl

/-- **An update tells apart** what it takes in, but for the sum of data and running value. -/
theorem update_eq_iff {register data data' previous previous' : Word} :
    update register data previous = update register data' previous' ↔
      data ^^^ previous = data' ^^^ previous' := by
  rw [update_eq, update_eq, BitVec.xor_right_inj, passed_injective.eq_iff]

/-! ## Payloads -/

/-- The value behind a run of words tells apart the values in front of it. -/
theorem foldl_update_injective (register : Word) (words : List Word) :
    Function.Injective fun value =>
      words.foldl (fun value word => update register word value) value := by
  induction words with
  | nil => exact fun _ _ h => h
  | cons word rest ih =>
    intro u v h
    have hsum := update_eq_iff.1 (ih h)
    exact (BitVec.xor_right_inj word).1 hsum

/-- **Payloads that differ in one word** leave different values behind. -/
theorem foldl_update_ne {register value : Word} {front back : List Word} {w w' : Word}
    (h : w ≠ w') :
    (front ++ w :: back).foldl (fun value word => update register word value) value ≠
      (front ++ w' :: back).foldl (fun value word => update register word value) value := by
  intro heq
  rw [List.foldl_append, List.foldl_append] at heq
  have hsum := update_eq_iff.1 (foldl_update_injective register back heq)
  exact h ((BitVec.xor_left_inj _).1 hsum)

/-! ## Packets -/

section Packets
variable {f : Family}

theorem ofPackets_append (front back : List (Packet f)) :
    ofPackets (front ++ back) = back.foldl updatePacket (ofPackets front) :=
  List.foldl_append

/-- Behind a reset and packets that do nothing the value is zero. -/
theorem ofPackets_reset (packets : List (Packet f)) (count : Nat) :
    ofPackets (packets ++ .command f .resetCrc :: Packet.nops f count) = 0 := by
  have hreset : ∀ value, updatePacket value (.command f .resetCrc) = 0 := by
    cases f <;> exact fun _ => rfl
  have hnops : (Packet.nops f count).foldl updatePacket 0 = 0 := by
    induction count with
    | zero => rfl
    | succ count ih => exact ih
  rw [ofPackets_append, List.foldl_cons, hreset, hnops]

/-- A long write of frame data takes in its words. -/
theorem updatePacket_frameData (hwide : f.hasWideWords = true) (value : Word) (words : List Word) :
    updatePacket value (.longWrite (.frameDataInput f) words) =
      words.foldl (fun value word => update (Register.frameDataInput f).raw word value) value := by
  cases f
  case spartan6 => cases hwide
  all_goals rfl

end Packets
end Crc

namespace Packet

/-- The last element to satisfy a test is where a list is split. -/
theorem splitAtLast?_append {α : Type} {test : α → Bool} {before after : List α} {found : α}
    (hfound : test found) (hafter : ∀ x ∈ after, test x = false) :
    splitAtLast? test (before ++ found :: after) = some (before, found :: after) := by
  have hreverse : (before ++ found :: after).reverse =
      after.reverse ++ found :: before.reverse := by simp
  have hskip : ∀ x ∈ after.reverse, !test x := by
    intro x hx
    rw [hafter x (List.mem_reverse.1 hx)]
    rfl
  rw [splitAtLast?, hreverse, List.span_eq_takeWhile_dropWhile,
    List.takeWhile_append_of_pos hskip, List.dropWhile_append_of_pos hskip]
  simp [hfound]

end Packet

namespace Package

open Packet

variable {f : Family}

/-- The tail up to the last command that resets the running value. -/
def tailStart (f : Family) : List (Packet f) :=
  [command f .resetCrc, nop f, nop f, command f .globalRestore, nop f, command f .lastFrame] ++
  nops f 100 ++
  [command f .start, nop f, write (.frameAddress f) [startupFrameAddress f],
    write (.mask f) [0x501], writeTo f 0x05 0x501]

/-- Between the last reset and the end of the stream nothing is written. -/
theorem tail_eq (hwide : f.hasWideWords = true) :
    tail f = tailStart f ++ command f .resetCrc :: nops f 2 ++
      command f .desync :: nops f (trailingNops f) := by
  cases f
  case spartan6 => cases hwide
  all_goals rfl

/-- Whatever stands in front of the tail, the check that is put into the tail is zero. -/
theorem insertCrcCheck?_tail (hwide : f.hasWideWords = true) (packets : List (Packet f)) :
    insertCrcCheck? (packets ++ tail f) =
      some (0, packets ++ (tailStart f ++ command f .resetCrc :: nops f 2) ++
        write (.crc f) [0] :: command f .desync :: nops f (trailingNops f)) := by
  have hzero : Crc.ofPackets (packets ++ (tailStart f ++ command f .resetCrc :: nops f 2)) = 0 := by
    rw [← List.append_assoc]
    exact Crc.ofPackets_reset _ 2
  have hdesync : isDesync (command f .desync) = true := by
    cases f <;> decide
  have hnops : ∀ p ∈ nops f (trailingNops f), isDesync p = false := by
    intro p hp
    rw [List.eq_of_mem_replicate hp]
    rfl
  rw [insertCrcCheck?, if_pos hwide, tail_eq hwide, ← List.append_assoc,
    splitAtLast?_append hdesync hnops, Option.map_some]
  simp only [hzero]

/-- **The check of a package is zero**, as the tail has reset the value in front of it. -/
theorem partialPackage_eq (hwide : f.hasWideWords = true) (part : Part f)
    (segments : List (Segment f)) (cor0 : Option StartupOptions) :
    partialPackage part segments { cor0, crcCheck := true } =
      start part { cor0 } ++ segments.flatMap frameData ++
        (tailStart f ++ command f .resetCrc :: nops f 2) ++
          write (.crc f) [0] :: command f .desync :: nops f (trailingNops f) := by
  rw [partialPackage_eq_withCrcCheck, if_pos rfl,
    withCrcCheck_of_eq_some (insertCrcCheck?_tail hwide _)]
  rfl

/-! ## The register for the CRC -/

/-- The words that packets write to the register for the CRC. -/
def crcWrites (packets : List (Packet f)) : List Word :=
  (packets.filter fun p => p.opcode = .write && p.register = .crc f).flatMap (·.data)

theorem crcWrites_append (front back : List (Packet f)) :
    crcWrites (front ++ back) = crcWrites front ++ crcWrites back := by
  rw [crcWrites, List.filter_append, List.flatMap_append]
  rfl

theorem crcWrites_eq_nil {packets : List (Packet f)}
    (h : ∀ p ∈ packets, p.opcode = .write → p.register ≠ .crc f) : crcWrites packets = [] := by
  have hnone : packets.filter (fun p => p.opcode = .write && p.register = .crc f) = [] := by
    refine List.filter_eq_nil_iff.2 fun p hp => ?_
    simpa using h p hp
  rw [crcWrites, hnone]
  rfl

theorem crcWrites_nops (f : Family) (count : Nat) : crcWrites (nops f count) = [] := by
  refine crcWrites_eq_nil fun p hp hwrite => ?_
  rw [List.eq_of_mem_replicate hp] at hwrite
  cases hwrite

theorem crcWrites_start (hwide : f.hasWideWords = true) (part : Part f)
    (cor0 : Option StartupOptions) : crcWrites (start part { cor0 }) = [] := by
  cases f
  case spartan6 => cases hwide
  all_goals cases cor0 <;> rfl

theorem crcWrites_tailStart (hwide : f.hasWideWords = true) :
    crcWrites (tailStart f ++ command f .resetCrc :: nops f 2) = [] := by
  rw [tailStart, crcWrites_append, crcWrites_append, crcWrites_append, crcWrites_nops]
  cases f
  case spartan6 => cases hwide
  all_goals rfl

theorem crcWrites_frameData (hwide : f.hasWideWords = true) (segment : Segment f) :
    crcWrites (frameData segment) = [] := by
  cases f
  case spartan6 => cases hwide
  all_goals rfl

theorem crcWrites_segments (hwide : f.hasWideWords = true) (segments : List (Segment f)) :
    crcWrites (segments.flatMap frameData) = [] := by
  induction segments with
  | nil => rfl
  | cons segment rest ih =>
    rw [List.flatMap_cons, crcWrites_append, crcWrites_frameData hwide, ih]
    rfl

/-- **The only word for the CRC that a package writes is zero**, whatever its segments hold. -/
theorem crcWrites_partialPackage (hwide : f.hasWideWords = true) (part : Part f)
    (segments : List (Segment f)) (cor0 : Option StartupOptions) :
    crcWrites (partialPackage part segments { cor0, crcCheck := true }) = [0] := by
  have hcheck : crcWrites [write (.crc f) [0], command f .desync] = [0] := by
    cases f
    case spartan6 => cases hwide
    all_goals rfl
  have hend : write (.crc f) [0] :: command f .desync :: nops f (trailingNops f) =
      [write (.crc f) [0], command f .desync] ++ nops f (trailingNops f) := rfl
  rw [partialPackage_eq hwide, hend, crcWrites_append, crcWrites_append, crcWrites_append,
    crcWrites_start hwide, crcWrites_segments hwide, crcWrites_tailStart hwide, crcWrites_append,
    hcheck, crcWrites_nops]
  rfl

/-- The value behind the frame data of payloads that differ in one word. -/
theorem ofPackets_frameData_ne (hwide : f.hasWideWords = true) (packets : List (Packet f))
    (a : FrameAddress f) (front back : List Word) {w w' : Word} (h : w ≠ w') :
    Crc.ofPackets (packets ++ frameData ⟨a, front ++ w :: back⟩) ≠
      Crc.ofPackets (packets ++ frameData ⟨a, front ++ w' :: back⟩) := by
  have hdata : ∀ payload, frameData ⟨a, payload⟩ =
      [.frameAddress a, command f .writeConfig, nop f, write (.frameDataInput f) []] ++
        [longWrite (.frameDataInput f) payload] := by
    cases f
    case spartan6 => cases hwide
    all_goals exact fun _ => rfl
  have hvalue : ∀ payload, Crc.ofPackets (packets ++ frameData ⟨a, payload⟩) =
      payload.foldl (fun value word => Crc.update (Register.frameDataInput f).raw word value)
        (Crc.ofPackets (packets ++
          [.frameAddress a, command f .writeConfig, nop f, write (.frameDataInput f) []])) := by
    intro payload
    rw [hdata, ← List.append_assoc, Crc.ofPackets_append, List.foldl_cons, List.foldl_nil,
      Crc.updatePacket_frameData hwide]
  rw [hvalue, hvalue]
  exact Crc.foldl_update_ne h

/-- **The check of a package does not cover the frame data.**  For payloads that differ in one word
the running values behind the frame data differ, but the tail resets them before the value to be
checked is taken: whatever the payload, the package writes a CRC of zero. -/
theorem crcCheck_fullPackage (hwide : f.hasWideWords = true) (part : Part f)
    (cor0 : Option StartupOptions) (front back : List Word) {w w' : Word} (h : w ≠ w') :
    Crc.ofPackets (start part { cor0 } ++
        frameData ⟨part.first?.getD ⟨0⟩, front ++ w :: back⟩) ≠
      Crc.ofPackets (start part { cor0 } ++
        frameData ⟨part.first?.getD ⟨0⟩, front ++ w' :: back⟩) ∧
    ∀ payload, fullPackage part payload { cor0, crcCheck := true } =
        start part { cor0 } ++ frameData ⟨part.first?.getD ⟨0⟩, payload⟩ ++
          (tailStart f ++ command f .resetCrc :: nops f 2) ++
            write (.crc f) [0] :: command f .desync :: nops f (trailingNops f) ∧
      crcWrites (fullPackage part payload { cor0, crcCheck := true }) = [0] := by
  refine ⟨ofPackets_frameData_ne hwide _ _ front back h, fun payload => ⟨?_, ?_⟩⟩
  · rw [fullPackage, partialPackage_eq hwide, List.flatMap_singleton]
  · exact crcWrites_partialPackage hwide _ _ _

/-- A 7-series part of one frame. -/
def oneFrame : Part .series7 where
  idcode := 0x0362D093
  layout := .regions ⟨.ofList [(0, ⟨.ofList [(.clbIoClk, ⟨.ofList [(0, ⟨1⟩)]⟩)]⟩)]⟩ .empty

theorem crcCheck_fullPackage_oneFrame :
    Crc.ofPackets (start oneFrame {} ++
        frameData ⟨oneFrame.first?.getD ⟨0⟩, 0 :: List.replicate 100 0⟩) ≠
      Crc.ofPackets (start oneFrame {} ++
        frameData ⟨oneFrame.first?.getD ⟨0⟩, 1 :: List.replicate 100 0⟩) ∧
    crcWrites (fullPackage oneFrame (0 :: List.replicate 100 0) { crcCheck := true }) = [0] ∧
      crcWrites (fullPackage oneFrame (1 :: List.replicate 100 0) { crcCheck := true }) = [0] := by
  have hne : (0 : Word) ≠ 1 := by decide
  obtain ⟨hvalues, hpackage⟩ :=
    crcCheck_fullPackage rfl oneFrame none [] (List.replicate 100 0) hne
  exact ⟨hvalues, (hpackage _).2, (hpackage _).2⟩

/-- Packages of payloads that differ in one word may write the same CRC. -/
theorem not_forall_crcWrites_ne :
    ¬ ∀ (f : Family) (part : Part f) (options : PackageOptions) (front back : List Word)
        (w w' : Word), f.hasWideWords = true → options.crcCheck = true → w ≠ w' →
      crcWrites (fullPackage part (front ++ w :: back) options) ≠
        crcWrites (fullPackage part (front ++ w' :: back) options) := by
  intro h
  have hzero (payload : List Word) :
      crcWrites (fullPackage oneFrame payload { crcCheck := true }) = [0] :=
    crcWrites_partialPackage rfl oneFrame _ none
  refine h .series7 oneFrame { crcCheck := true } [] (List.replicate 100 0) 0 1 rfl rfl
    (by decide) ?_
  rw [hzero, hzero]

end Package
end FpgaBitstream
