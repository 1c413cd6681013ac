import FpgaBitstream.Ecc
import FpgaBitstream.Proofs.ParityCheck

/-!
# The distance of frame codes

The code of a frame is a sum of syndromes, and a check of its bits is one of sums of bits
(`Adds.foldl_zipIdx`).  A frame that `update` leaves alone is therefore a word of a systematic code
(`isCodeword_bits`), of which only the syndromes have to be looked at: they have an odd number of
ones, and no two of them are the same.  In the 7-series the parity is added to bit 12, so that bit
12 of a sum counts its checks (`Series7.sum_check`), and the other bits of a syndrome are a number
that passes over the powers of two; in the UltraScale families a syndrome spells the place of a
nibble and its parity, with one bit in each nibble.  So any two frames with a code differ in four
bits (`four_le_hammingDist_of_update`).
-/

namespace FpgaBitstream.Ecc

open ParityCheck

/-! ## Sums of syndromes -/

/-- A check of words that turns exclusive or into a sum. -/
def Adds {w : Nat} (check : BitVec w → ZMod 2) : Prop := ∀ u v, check (u ^^^ v) = check u + check v

theorem adds_bit {w : Nat} (k : Nat) : Adds fun u : BitVec w => parity (u.getLsbD k) := by
  intro u v
  show parity ((u ^^^ v).getLsbD k) = parity (u.getLsbD k) + parity (v.getLsbD k)
  rw [BitVec.getLsbD_xor, parity_xor]

section Adds
variable {w : Nat} {check : BitVec w → ZMod 2} (h : Adds check)
include h

theorem Adds.zero : check 0 = 0 := by
  have hsum := h 0 0
  rw [BitVec.xor_self] at hsum
  exact left_eq_add.1 hsum

theorem Adds.sumBits (syndrome : Nat → BitVec w) (word : Word) (sum : BitVec w) :
    check (sumBits syndrome word sum) =
      check sum + ∑ bit ∈ Finset.range 32, parity (word.getLsbD bit) * check (syndrome bit) := by
  have hrange : ∀ n, check ((List.range n).foldl
      (fun sum bit => if word.getLsbD bit then sum ^^^ syndrome bit else sum) sum) =
        check sum + ∑ bit ∈ Finset.range n, parity (word.getLsbD bit) * check (syndrome bit) := by
    intro n
    induction n with
    | zero => simp
    | succ n ih =>
      rw [List.range_succ, List.foldl_append, List.foldl_cons, List.foldl_nil,
        Finset.sum_range_succ, ← add_assoc, ← ih]
      cases word.getLsbD n with
      | false => simp
      | true => simp [h _ _]
  exact hrange 32

/-- The running sum over the words of a frame. -/
theorem Adds.foldl_zipIdx (mask : Nat → Word → Word) (syndrome : Nat → Nat → BitVec w)
    (frame : List Word) :
    check (frame.zipIdx.foldl
        (fun sum (word, index) => Ecc.sumBits (syndrome index) (mask index word) sum) 0) =
      ∑ index ∈ Finset.range frame.length, ∑ bit ∈ Finset.range 32,
        parity ((mask index (frame.getD index 0)).getLsbD bit) * check (syndrome index bit) := by
  induction frame using List.reverseRecOn with
  | nil => simpa using h.zero
  | append_singleton front last ih =>
    have hfront : ∀ index ∈ Finset.range front.length,
        ∑ bit ∈ Finset.range 32,
            parity ((mask index ((front ++ [last]).getD index 0)).getLsbD bit) *
              check (syndrome index bit) =
          ∑ bit ∈ Finset.range 32, parity ((mask index (front.getD index 0)).getLsbD bit) *
            check (syndrome index bit) := by
      intro index hindex
      rw [List.getD_append _ _ _ _ (Finset.mem_range.1 hindex)]
    have hlast : (front ++ [last]).getD front.length 0 = last := by simp
    rw [List.zipIdx_append, List.foldl_append, List.length_append, List.length_singleton,
      Finset.sum_range_succ, hlast, Finset.sum_congr rfl hfront, ← ih, Nat.zero_add]
    exact h.sumBits _ _ _

end Adds

/-! ## Frames as words of a code -/

/-- The bits of a frame of `n` words. -/
def bits (n : Nat) (frame : List Word) (p : Fin n × Fin 32) : Bool := (frame.getD p.1 0).getLsbD p.2

/-- Frames of the same length with the same bits are the same. -/
theorem eq_of_bits_eq {n : Nat} {a b : List Word} (ha : a.length = n) (hb : b.length = n)
    (h : bits n a = bits n b) : a = b := by
  refine List.ext_getElem (ha.trans hb.symm) fun index hindexa hindexb => ?_
  refine BitVec.eq_of_getLsbD_eq fun bit hbit => ?_
  have hplace := congrFun h (⟨index, ha ▸ hindexa⟩, ⟨bit, hbit⟩)
  simpa [bits, List.getD_eq_getElem, hindexa, hindexb] using hplace

section Codeword
variable {κ : Type} [Fintype κ] {n w : Nat} {place : κ → Fin n × Fin 32}
  {check : κ → BitVec w → ZMod 2} {mask : Nat → Word → Word} {syndrome : Nat → Nat → BitVec w}

/-- A frame is a word of the code when it holds the checks of the sum of its syndromes, and the mask
clears the places where it holds them. -/
theorem isCodeword_bits (hadds : ∀ k, Adds (check k))
    (hmask : ∀ (p : Fin n × Fin 32) (word : Word), (mask p.1 word).getLsbD p.2 =
      (word.getLsbD p.2 && decide (p ∉ checkPlaces place)))
    {frame : List Word} (hlength : frame.length = n)
    (hstored : ∀ k, parity (bits n frame (place k)) = check k (frame.zipIdx.foldl
      (fun sum (word, index) => sumBits (syndrome index) (mask index word) sum) 0)) :
    IsCodeword place (fun p k => check k (syndrome p.1 p.2)) fun p => parity (bits n frame p) := by
  intro k
  have hsum : ∀ p : Fin n × Fin 32,
      (if p ∈ checkPlaces place then 0
        else parity (bits n frame p) * check k (syndrome p.1 p.2)) =
      parity ((mask p.1 (frame.getD p.1 0)).getLsbD p.2) * check k (syndrome p.1 p.2) := by
    intro p
    rw [hmask, bits]
    by_cases hp : p ∈ checkPlaces place <;> simp [hp]
  calc parity (bits n frame (place k))
      = ∑ index ∈ Finset.range n, ∑ bit ∈ Finset.range 32,
          parity ((mask index (frame.getD index 0)).getLsbD bit) *
            check k (syndrome index bit) := by
        rw [hstored, (hadds k).foldl_zipIdx, hlength]
    _ = ∑ p : Fin n × Fin 32,
          parity ((mask p.1 (frame.getD p.1 0)).getLsbD p.2) * check k (syndrome p.1 p.2) := by
        rw [Fintype.sum_prod_type, ← Fin.sum_univ_eq_sum_range]
        exact Finset.sum_congr rfl fun index _ => (Fin.sum_univ_eq_sum_range _ 32).symm
    _ = _ := Finset.sum_congr rfl fun p _ => (hsum p).symm

end Codeword

/-- Frames that are words of a systematic code differ in at least four bits. -/
theorem four_le_hammingDist_bits {κ : Type} [Fintype κ] [DecidableEq κ] {n : Nat}
    {place : κ → Fin n × Fin 32} {syndrome : Fin n × Fin 32 → κ → ZMod 2}
    (hcode : Systematic place syndrome) {a b : List Word} (ha : a.length = n) (hb : b.length = n)
    (hacode : IsCodeword place syndrome fun p => parity (bits n a p))
    (hbcode : IsCodeword place syndrome fun p => parity (bits n b p)) (hne : a ≠ b) :
    4 ≤ hammingDist (bits n a) (bits n b) := by
  have hdist : hammingDist (fun p => parity (bits n a p)) (fun p => parity (bits n b p)) =
      hammingDist (bits n a) (bits n b) :=
    hammingDist_comp (fun _ => parity) fun _ => parity_injective
  rw [← hdist]
  refine hcode.four_le_hammingDist hacode hbcode fun heq => hne (eq_of_bits_eq ha hb ?_)
  exact funext fun p => parity_injective (congrFun heq p)

/-- Numbers with the same bits have the same remainder. -/
theorem mod_eq_of_testBit {u v width : Nat} (h : ∀ k < width, u.testBit k = v.testBit k) :
    u % 2 ^ width = v % 2 ^ width := by
  refine Nat.eq_of_testBit_eq fun k => ?_
  rw [Nat.testBit_mod_two_pow, Nat.testBit_mod_two_pow]
  by_cases hk : k < width
  · rw [h k hk]
  · simp [hk]

/-! ## The 7-series -/

namespace Series7

/-- The word of a frame without the bits that hold the code. -/
def maskWord (index : Nat) (word : Word) : Word :=
  if index = eccWord then word &&& ~~~eccMask else word

/-- The syndrome of a bit, before the parity is added. -/
def syndrome (index bit : Nat) : Word := baseSyndrome index + BitVec.ofNat 32 bit

/-- The code of a sum of syndromes. -/
def withParity (ecc : Word) : Word := ecc ^^^ parityBit ecc

/-- Adding the parity of the low bits leaves them as they are. -/
theorem getLsbD_withParity {k : Nat} (hk : k < 12) (ecc : Word) :
    (withParity ecc).getLsbD k = ecc.getLsbD k := by
  simp [withParity, parityBit, hk]

/-- The bit that is added to the code is the parity of the low bits. -/
theorem parity_parityBit (ecc : Word) :
    parity ((parityBit ecc).getLsbD 12) = ∑ k ∈ Finset.range 12, parity (ecc.getLsbD k) := by
  -- each shift folds the bits onto half of them, so they come in another order than in the sum
  simp [parityBit, Finset.sum_range_succ, parity_xor]
  ring

/-- The checks of the code: bit `k` of the code of a sum. -/
def check (k : Fin 13) (ecc : Word) : ZMod 2 := parity ((withParity ecc).getLsbD k)

theorem check_of_lt {k : Fin 13} (hk : k.val < 12) (ecc : Word) :
    check k ecc = parity (ecc.getLsbD k) := by
  rw [check, getLsbD_withParity hk]

theorem check_last (ecc : Word) :
    check (Fin.last 12) ecc =
      parity (ecc.getLsbD 12) + ∑ k ∈ Finset.range 12, parity (ecc.getLsbD k) := by
  rw [← parity_parityBit, ← parity_xor, ← BitVec.getLsbD_xor]
  rfl

theorem adds_check (k : Fin 13) : Adds (check k) := by
  intro u v
  by_cases hk : k.val < 12
  · simp only [check_of_lt hk, BitVec.getLsbD_xor, parity_xor]
  · have hlast : k.val = 12 := by omega
    obtain rfl : k = Fin.last 12 := Fin.ext hlast
    simp only [check_last, BitVec.getLsbD_xor, parity_xor, Finset.sum_add_distrib]
    ring

/-- All checks of a sum together are its bit 12. -/
theorem sum_check (ecc : Word) : ∑ k, check k ecc = parity (ecc.getLsbD 12) := by
  have hlow : ∑ k : Fin 12, check k.castSucc ecc =
      ∑ k ∈ Finset.range 12, parity (ecc.getLsbD k) := by
    rw [← Fin.sum_univ_eq_sum_range]
    exact Finset.sum_congr rfl fun k _ => check_of_lt k.isLt ecc
  rw [Fin.sum_univ_castSucc, hlow, check_last, add_left_comm, CharTwo.add_self_eq_zero, add_zero]

/-- What the syndrome of a bit is above the place of the bit in the frame. -/
def offset (index : Nat) : Nat :=
  if index > 0x25 then 0x1360 else if index > 0x6 then 0x1340 else 0x1320

theorem offset_le_offset {index index' : Nat} (h : index ≤ index') :
    offset index ≤ offset index' := by
  unfold offset
  grind

theorem offset_le (index : Nat) : offset index ≤ 0x1360 := by
  unfold offset
  grind

theorem toNat_syndrome {index bit : Nat} (hindex : index < 101) (hbit : bit < 32) :
    (syndrome index bit).toNat = index * 32 + bit + offset index := by
  have hoffset := offset_le index
  have hbase : baseSyndrome index = BitVec.ofNat 32 (index * 32 + offset index) := rfl
  rw [syndrome, hbase, BitVec.toNat_add, BitVec.toNat_ofNat, BitVec.toNat_ofNat]
  omega

/-- Bit 12 of a syndrome is set, and the low bits pass over the powers of two. -/
theorem syndrome_range {index bit : Nat} (hindex : index < 101) (hbit : bit < 32) :
    (0x1320 ≤ (syndrome index bit).toNat ∧ (syndrome index bit).toNat < 0x1400) ∨
      (0x1420 ≤ (syndrome index bit).toNat ∧ (syndrome index bit).toNat < 0x1800) ∨
      (0x1820 ≤ (syndrome index bit).toNat ∧ (syndrome index bit).toNat < 0x2000) := by
  rw [toNat_syndrome hindex hbit, offset]
  split
  · omega
  · split <;> omega

/-- No two bits of a frame have the same syndrome. -/
theorem eq_of_toNat_syndrome {index bit index' bit' : Nat} (hindex : index < 101) (hbit : bit < 32)
    (hindex' : index' < 101) (hbit' : bit' < 32)
    (h : (syndrome index bit).toNat = (syndrome index' bit').toNat) :
    index = index' ∧ bit = bit' := by
  rw [toNat_syndrome hindex hbit, toNat_syndrome hindex' hbit'] at h
  -- the offset grows with the word
  rcases Nat.lt_trichotomy index index' with hlt | heq | hgt
  · have hoffset := offset_le_offset (Nat.le_of_lt hlt)
    omega
  · subst heq
    exact ⟨rfl, by omega⟩
  · have hoffset := offset_le_offset (Nat.le_of_lt hgt)
    omega

/-- Sums with the same checks have the same low bits. -/
theorem mod_eq_of_check {u : Word} {v : Nat}
    (h : ∀ k : Fin 13, k.val < 12 → check k u = parity (v.testBit k)) :
    u.toNat % 2 ^ 12 = v % 2 ^ 12 := by
  refine mod_eq_of_testBit fun k hk => parity_injective ?_
  rw [← h ⟨k, by omega⟩ hk, check_of_lt hk, BitVec.testBit_toNat]

/-- The bits of a frame that hold the code. -/
def place (k : Fin 13) : Fin 101 × Fin 32 := (⟨eccWord, by decide⟩, ⟨k, by omega⟩)

theorem mem_checkPlaces_place {p : Fin 101 × Fin 32} :
    p ∈ checkPlaces place ↔ p.1.val = eccWord ∧ p.2.val < 13 := by
  obtain ⟨index, bit⟩ := p
  rw [mem_checkPlaces]
  constructor
  · rintro ⟨k, hk⟩
    obtain ⟨rfl, rfl⟩ := Prod.mk.inj hk
    exact ⟨rfl, k.isLt⟩
  · rintro ⟨hindex, hbit⟩
    exact ⟨⟨bit, hbit⟩, Prod.ext (Fin.ext hindex.symm) rfl⟩

/-- Every syndrome takes part in an odd number of checks. -/
theorem sum_check_syndrome (p : Fin 101 × Fin 32) : ∑ k, check k (syndrome p.1 p.2) = 1 := by
  have hrange := syndrome_range p.1.isLt p.2.isLt
  have hbit : (syndrome p.1 p.2).getLsbD 12 = true := by
    rw [← BitVec.testBit_toNat, Nat.testBit_eq_decide_div_mod_eq, decide_eq_true_iff]
    omega
  rw [sum_check, hbit]
  rfl

/-- Syndromes with the same checks belong to the same bit. -/
theorem eq_of_check_eq {p q : Fin 101 × Fin 32}
    (h : ∀ k, check k (syndrome p.1 p.2) = check k (syndrome q.1 q.2)) : p = q := by
  have hp := syndrome_range p.1.isLt p.2.isLt
  have hq := syndrome_range q.1.isLt q.2.isLt
  have hmod : (syndrome p.1 p.2).toNat % 2 ^ 12 = (syndrome q.1 q.2).toNat % 2 ^ 12 := by
    refine mod_eq_of_check fun k hk => ?_
    rw [h k, check_of_lt hk, BitVec.testBit_toNat]
  have hsame : (syndrome p.1 p.2).toNat = (syndrome q.1 q.2).toNat := by omega
  obtain ⟨hindex, hbit⟩ := eq_of_toNat_syndrome p.1.isLt p.2.isLt q.1.isLt q.2.isLt hsame
  exact Prod.ext (Fin.ext hindex) (Fin.ext hbit)

/-- No syndrome takes part in one check only. -/
theorem not_check_single (p : Fin 101 × Fin 32) (k : Fin 13) :
    ¬ ∀ j, check j (syndrome p.1 p.2) = if j = k then 1 else 0 := by
  intro h
  have hrange := syndrome_range p.1.isLt p.2.isLt
  have hmod : (syndrome p.1 p.2).toNat % 2 ^ 12 = 2 ^ k.val % 2 ^ 12 := by
    refine mod_eq_of_check fun j hj => ?_
    rw [h j, Nat.testBit_two_pow]
    by_cases hjk : j = k
    · simp [hjk]
    · have hne : k.val ≠ j.val := fun heq => hjk (Fin.ext heq.symm)
      simp [hjk, hne]
  have hpower : ∀ k : Fin 13, 2 ^ k.val % 2 ^ 12 < 0x320 ∨ 2 ^ k.val % 2 ^ 12 = 0x400 ∨
      2 ^ k.val % 2 ^ 12 = 0x800 := by decide
  rcases hpower k with hsmall | hlarge | hlarge <;> omega

/-- **The code of the 7-series** is systematic. -/
theorem systematic : Systematic place fun p k => check k (syndrome p.1 p.2) where
  place_injective _ _ h := Fin.ext (congrArg (fun p => p.2.val) h)
  odd p _ := sum_check_syndrome p
  separates _ _ _ _ h := eq_of_check_eq (congrFun h)
  ne_single p _ k h := not_check_single p k (congrFun h)

/-! Frames that `update` leaves alone. -/

theorem getLsbD_maskWord (p : Fin 101 × Fin 32) (word : Word) :
    (maskWord p.1 word).getLsbD p.2 = (word.getLsbD p.2 && decide (p ∉ checkPlaces place)) := by
  have hmask : ∀ bit : Fin 32, (~~~eccMask).getLsbD bit = decide (13 ≤ bit.val) := by decide
  simp only [mem_checkPlaces_place, maskWord]
  by_cases hindex : p.1.val = eccWord
  · rw [if_pos hindex, BitVec.getLsbD_and, hmask]
    simp [hindex]
  · simp [hindex]

theorem addWord_of_ne {index : Nat} (h : index ≠ lastWord) (word ecc : Word) :
    addWord index word ecc = sumBits (syndrome index) (maskWord index word) ecc :=
  if_neg h

theorem addWord_last (word ecc : Word) : addWord lastWord word ecc =
    withParity (sumBits (syndrome lastWord) (maskWord lastWord word) ecc) := by
  simp only [addWord, if_true]
  rfl

/-- The parity is added once, behind the last word. -/
theorem ofFrame_eq {frame : List Word} (hlength : frame.length = 101) :
    ofFrame frame = withParity (frame.zipIdx.foldl
      (fun sum (word, index) => sumBits (syndrome index) (maskWord index word) sum) 0) := by
  have hne : frame ≠ [] := List.ne_nil_of_length_pos (by omega)
  obtain ⟨front, last, rfl⟩ : ∃ front last, frame = front ++ [last] :=
    ⟨_, _, (List.dropLast_concat_getLast hne).symm⟩
  have hfront : front.length = lastWord := by
    rw [List.length_append, List.length_singleton] at hlength
    exact Nat.succ.inj hlength
  have hsame : front.zipIdx.foldl (fun ecc (word, index) => addWord index word ecc) 0 =
      front.zipIdx.foldl
        (fun sum (word, index) => sumBits (syndrome index) (maskWord index word) sum) 0 := by
    refine List.foldl_ext _ _ _ fun ecc entry hentry => addWord_of_ne ?_ _ _
    exact Nat.ne_of_lt (hfront ▸ List.snd_lt_of_mem_zipIdx hentry)
  have hlast : [last].zipIdx (0 + front.length) = [(last, lastWord)] := by
    rw [List.zipIdx_singleton, Nat.zero_add, hfront]
  rw [ofFrame, List.zipIdx_append, List.foldl_append, List.foldl_append, hsame, hlast,
    List.foldl_cons, List.foldl_nil, List.foldl_cons, List.foldl_nil]
  exact addWord_last _ _

/-- A frame that is left alone holds its code. -/
theorem bits_place {frame : List Word} (hlength : frame.length = 101) (h : update frame = frame)
    (k : Fin 13) : bits 101 frame (place k) = (ofFrame frame).getLsbD k := by
  have hlt : eccWord < frame.length := by
    rw [hlength]
    decide
  have hmask : ∀ bit : Fin 13, eccMask.getLsbD bit = true := by decide
  have hword : (frame[eccWord] &&& ~~~eccMask) ||| (ofFrame frame &&& eccMask) =
      frame[eccWord] := by
    have hget := congrArg (·[eccWord]?) h
    simp only [update, List.getElem?_eq_getElem hlt, List.getElem?_set_self hlt] at hget
    exact Option.some.inj hget
  have hbit := congrArg (·.getLsbD k) hword
  simp only [BitVec.getLsbD_or, BitVec.getLsbD_and, hmask, BitVec.getLsbD_not, Bool.not_true,
    Bool.and_false, Bool.false_or, Bool.and_true] at hbit
  rw [bits, place, List.getD_eq_getElem _ _ hlt, hbit]

theorem isCodeword {frame : List Word} (hlength : frame.length = 101) (h : update frame = frame) :
    IsCodeword place (fun p k => check k (syndrome p.1 p.2))
      fun p => parity (bits 101 frame p) := by
  refine isCodeword_bits adds_check getLsbD_maskWord hlength fun k => ?_
  rw [bits_place hlength h, ofFrame_eq hlength]
  rfl

end Series7
namespace UltraScale

variable {n index bit : Nat}

/-- A place counts the nibbles from the start of a frame of 256 words on, of which the frame is the
end. -/
theorem toNat_nibblePlace (hn : n < 128) (hindex : index < n) (hbit : bit < 32) :
    (nibblePlace n index bit).toNat = (index + 256 - n) * 8 + bit / 4 := by
  have hword : (BitVec.ofNat 12 (index + 256) - BitVec.ofNat 12 n).toNat = index + 256 - n := by
    rw [BitVec.toNat_sub, BitVec.toNat_ofNat, BitVec.toNat_ofNat]
    omega
  have hshift : (index + 256 - n) <<< 3 = (index + 256 - n) * 8 := Nat.shiftLeft_eq _ _
  have hnibble : (BitVec.ofNat 12 (bit / 4)).toNat = bit / 4 := by
    rw [BitVec.toNat_ofNat]
    omega
  have hsmall : (index + 256 - n) <<< 3 % 2 ^ 12 = (index + 256 - n) <<< 3 := by
    rw [hshift]
    omega
  rw [nibblePlace, BitVec.toNat_or, BitVec.toNat_shiftLeft, hword, hnibble, hsmall,
    ← Nat.shiftLeft_add_eq_or_of_lt (by omega), hshift]

theorem parity_foldl_oddParity (place : BitVec 12) {n : Nat} (hn : n ≤ 11) (k : Nat) :
    parity (((List.range n).foldl
        (fun place i => if place.getLsbD i then place ^^^ 0x800 else place)
          (place ^^^ 0x800)).getLsbD k) = parity (place.getLsbD k) +
      (1 + ∑ i ∈ Finset.range n, parity (place.getLsbD i)) *
        parity ((0x800 : BitVec 12).getLsbD k) := by
  have hlow : ∀ i < 11, (0x800 : BitVec 12).getLsbD i = false := by decide
  induction n generalizing k with
  | zero =>
    simp only [List.range_zero, List.foldl_nil, Finset.range_zero, Finset.sum_empty, add_zero,
      one_mul, BitVec.getLsbD_xor, parity_xor]
  | succ n ih =>
    -- the bit that is looked at is still the one of the place
    have hbit := ih (Nat.le_of_succ_le hn) n
    rw [hlow n hn, parity_false, mul_zero, add_zero] at hbit
    rw [List.range_succ, List.foldl_append, List.foldl_cons, List.foldl_nil,
      parity_injective hbit, Finset.sum_range_succ]
    cases place.getLsbD n with
    | false =>
      rw [if_neg Bool.false_ne_true, ih (Nat.le_of_succ_le hn), parity_false, add_zero]
    | true =>
      rw [if_pos rfl, BitVec.getLsbD_xor, parity_xor, ih (Nat.le_of_succ_le hn), parity_true]
      ring

/-- The adjustment of a place adds up the parities of its other bits. -/
theorem parity_withOddParity (place : BitVec 12) (k : Nat) :
    parity ((withOddParity place).getLsbD k) = parity (place.getLsbD k) +
      (1 + ∑ i ∈ Finset.range 11, parity (place.getLsbD i)) *
        parity ((0x800 : BitVec 12).getLsbD k) :=
  parity_foldl_oddParity place (Nat.le_refl _) k

theorem getLsbD_withOddParity {k : Nat} (hk : k < 11) (place : BitVec 12) :
    (withOddParity place).getLsbD k = place.getLsbD k := by
  have hlow : ∀ k < 11, (0x800 : BitVec 12).getLsbD k = false := by decide
  refine parity_injective ?_
  rw [parity_withOddParity, hlow k hk, parity_false, mul_zero, add_zero]

/-- A place below 2048 gets an odd number of bits. -/
theorem sum_withOddParity {place : BitVec 12} (hplace : place.toNat < 2 ^ 11) :
    ∑ k ∈ Finset.range 12, parity ((withOddParity place).getLsbD k) = 1 := by
  have htop : place.getLsbD 11 = false := by
    rw [← BitVec.testBit_toNat]
    exact Nat.testBit_lt_two_pow hplace
  have hlow : ∀ k ∈ Finset.range 11,
      parity ((withOddParity place).getLsbD k) = parity (place.getLsbD k) := by
    intro k hk
    rw [getLsbD_withOddParity (Finset.mem_range.1 hk)]
  have hlast : (0x800 : BitVec 12).getLsbD 11 = true := by decide
  rw [Finset.sum_range_succ, Finset.sum_congr rfl hlow, parity_withOddParity, htop, hlast,
    parity_false, parity_true, zero_add, mul_one, add_left_comm, CharTwo.add_self_eq_zero, add_zero]

theorem getLsbD_foldl_spread (place : BitVec 12) {k : Nat} (hk : k < 48) (n : Nat) :
    ((List.range n).foldl (fun sum i =>
      if place.getLsbD i then sum ||| BitVec.ofNat 48 (1 <<< (4 * i)) else sum) 0).getLsbD k =
        (decide (k % 4 = 0 ∧ k / 4 < n) && place.getLsbD (k / 4)) := by
  have hunit : ∀ i, (BitVec.ofNat 48 (1 <<< (4 * i))).getLsbD k = decide (4 * i = k) := by
    intro i
    rw [BitVec.getLsbD_ofNat, Nat.one_shiftLeft, Nat.testBit_two_pow]
    simp [hk]
  induction n with
  | zero => simp
  | succ n ih =>
    have hstep : ∀ sum : BitVec 48,
        (if place.getLsbD n then sum ||| BitVec.ofNat 48 (1 <<< (4 * n)) else sum).getLsbD k =
          (sum.getLsbD k || (place.getLsbD n && decide (4 * n = k))) := by
      intro sum
      cases place.getLsbD n with
      | false => simp
      | true => simp only [if_true, BitVec.getLsbD_or, hunit, Bool.true_and]
    rw [List.range_succ, List.foldl_append, List.foldl_cons, List.foldl_nil, hstep, ih]
    by_cases hn : 4 * n = k
    · have hquot : k / 4 = n := by omega
      have hrem : k % 4 = 0 := by omega
      simp [hn, hquot, hrem]
    · have hiff : (k % 4 = 0 ∧ k / 4 < n + 1) ↔ (k % 4 = 0 ∧ k / 4 < n) := by omega
      simp only [hn, hiff, decide_false, Bool.and_false, Bool.or_false]

theorem getLsbD_spread (place : BitVec 12) {k : Nat} (hk : k < 48) :
    (spread place).getLsbD k = (decide (k % 4 = 0) && place.getLsbD (k / 4)) := by
  have hlast : (k % 4 = 0 ∧ k / 4 < 12) ↔ k % 4 = 0 := by omega
  have hspread := getLsbD_foldl_spread place hk 12
  simp only [hlast] at hspread
  exact hspread

theorem getLsbD_bitSyndrome (n index bit : Nat) {j r : Nat} (hj : j < 12) (hr : r < 4) :
    (bitSyndrome n index bit).getLsbD (4 * j + r) =
      (decide (r = bit % 4) && (withOddParity (nibblePlace n index bit)).getLsbD j) := by
  have hlt : 4 * j + r < 48 := by omega
  have hsmall : 4 * j + r - bit % 4 < 48 := by omega
  rw [bitSyndrome, BitVec.getLsbD_shiftLeft, getLsbD_spread _ hsmall, decide_eq_true hlt,
    Bool.true_and, ← Bool.and_assoc]
  by_cases hsame : r = bit % 4
  · have hrem : (4 * j + r - bit % 4) % 4 = 0 := by omega
    have hquot : (4 * j + r - bit % 4) / 4 = j := by omega
    have hle : ¬ 4 * j + r < bit % 4 := by omega
    rw [hrem, hquot, decide_eq_false hle, decide_eq_true hsame]
    rfl
  · have hrem : 4 * j + r < bit % 4 ∨ ¬ (4 * j + r - bit % 4) % 4 = 0 := by omega
    rcases hrem with hlt | hrem
    · rw [decide_eq_true hlt, decide_eq_false hsame]
      rfl
    · rw [decide_eq_false hrem, decide_eq_false hsame, Bool.and_false]
      rfl

/-! The code of a frame of `n` words, in the words from `e` on. -/

/-- The checks of the code: a bit of the sum, by nibble and place in the nibble. -/
def check (k : Fin 12 × Fin 4) (ecc : BitVec 48) : ZMod 2 := parity (ecc.getLsbD (4 * k.1 + k.2))

theorem check_bitSyndrome (n index bit : Nat) (k : Fin 12 × Fin 4) :
    check k (bitSyndrome n index bit) = if k.2.val = bit % 4 then
      parity ((withOddParity (nibblePlace n index bit)).getLsbD k.1) else 0 := by
  rw [check, getLsbD_bitSyndrome n index bit k.1.isLt k.2.isLt]
  by_cases h : k.2.val = bit % 4 <;> simp [h]

/-- The bits of a frame that hold the code, the low 32 in the second word. -/
def place {e : Nat} (he : e + 1 < n) (k : Fin 12 × Fin 4) : Fin n × Fin 32 :=
  (⟨e + 1 - (4 * k.1 + k.2) / 32, by omega⟩, ⟨(4 * k.1 + k.2) % 32, by omega⟩)

variable {e : Nat} (he : e + 1 < n)

theorem place_injective : Function.Injective (place he) := by
  intro j k h
  obtain ⟨hindex, hbit⟩ := Prod.mk.inj h
  have hindex := Fin.val_eq_of_eq hindex
  have hbit := Fin.val_eq_of_eq hbit
  simp only at hindex hbit
  have hj := j.1.isLt
  have hk := k.1.isLt
  exact Prod.ext (Fin.ext (by omega)) (Fin.ext (by omega))

theorem mem_checkPlaces_place {p : Fin n × Fin 32} :
    p ∈ checkPlaces (place he) ↔ p.1.val = e + 1 ∨ (p.1.val = e ∧ p.2.val < 16) := by
  obtain ⟨index, bit⟩ := p
  rw [mem_checkPlaces]
  constructor
  · rintro ⟨k, hk⟩
    obtain ⟨rfl, rfl⟩ := Prod.mk.inj hk
    simp only
    omega
  · rintro (hindex | ⟨hindex, hbit⟩)
    · refine ⟨(⟨bit / 4, by omega⟩, ⟨bit % 4, by omega⟩), Prod.ext (Fin.ext ?_) (Fin.ext ?_)⟩
      · simp only [place] at hindex ⊢
        omega
      · simp only [place]
        omega
    · refine ⟨(⟨8 + bit / 4, by simp only at hbit; omega⟩, ⟨bit % 4, by omega⟩),
        Prod.ext (Fin.ext ?_) (Fin.ext ?_)⟩
      · simp only [place] at hindex hbit ⊢
        omega
      · simp only [place] at hbit ⊢
        omega

/-- The places of the nibbles lie behind 1024, the last at 2047. -/
theorem nibblePlace_range (hn : n < 128) (hindex : index < n) (hbit : bit < 32) :
    1024 < (nibblePlace n index bit).toNat ∧ (nibblePlace n index bit).toNat < 2 ^ 11 := by
  rw [toNat_nibblePlace hn hindex hbit]
  omega

theorem eq_of_toNat_nibblePlace {index' bit' : Nat} (hn : n < 128) (hindex : index < n)
    (hbit : bit < 32) (hindex' : index' < n) (hbit' : bit' < 32)
    (h : (nibblePlace n index bit).toNat = (nibblePlace n index' bit').toNat)
    (hrem : bit % 4 = bit' % 4) : index = index' ∧ bit = bit' := by
  rw [toNat_nibblePlace hn hindex hbit, toNat_nibblePlace hn hindex' hbit'] at h
  omega

/-- In its own bit of each nibble, a syndrome spells the place of the nibble that the bit is in. -/
theorem check_of_lt {j : Fin 12} (hj : j.val < 11) {r : Fin 4} (hr : r.val = bit % 4) :
    check (j, r) (bitSyndrome n index bit) = parity ((nibblePlace n index bit).getLsbD j) := by
  rw [check_bitSyndrome, if_pos hr, getLsbD_withOddParity hj]

/-- Bit 10 of every place is set. -/
theorem check_ten (hn : n < 128) (hindex : index < n) (hbit : bit < 32) (r : Fin 4) :
    check (10, r) (bitSyndrome n index bit) = if r.val = bit % 4 then 1 else 0 := by
  have hrange := nibblePlace_range hn hindex hbit
  have hten : (nibblePlace n index bit).getLsbD 10 = true := by
    rw [← BitVec.testBit_toNat, Nat.testBit_eq_decide_div_mod_eq, decide_eq_true_iff]
    omega
  have hlow : (10 : Fin 12).val < 11 := by decide
  rw [check_bitSyndrome, getLsbD_withOddParity hlow]
  exact if_congr Iff.rfl (congrArg parity hten) rfl

/-- Every syndrome takes part in an odd number of checks. -/
theorem sum_check_bitSyndrome (hn : n < 128) (p : Fin n × Fin 32) :
    ∑ k, check k (bitSyndrome n p.1 p.2) = 1 := by
  have hlt := (nibblePlace_range hn p.1.isLt p.2.isLt).2
  have hmod : p.2.val % 4 < 4 := Nat.mod_lt _ (by decide)
  rw [Fintype.sum_prod_type, ← sum_withOddParity hlt, ← Fin.sum_univ_eq_sum_range]
  refine Finset.sum_congr rfl fun j _ => ?_
  rw [Finset.sum_eq_single ⟨p.2.val % 4, hmod⟩]
  · rw [check_bitSyndrome, if_pos rfl]
  · intro r _ hr
    rw [check_bitSyndrome, if_neg fun heq => hr (Fin.ext heq)]
  · exact fun h => absurd (Finset.mem_univ _) h

/-- Syndromes with the same checks belong to the same bit. -/
theorem eq_of_check_eq (hn : n < 128) {p q : Fin n × Fin 32}
    (h : ∀ k, check k (bitSyndrome n p.1 p.2) = check k (bitSyndrome n q.1 q.2)) : p = q := by
  obtain ⟨r, hr⟩ : ∃ r : Fin 4, r.val = p.2.val % 4 := ⟨⟨_, Nat.mod_lt _ (by decide)⟩, rfl⟩
  have hp := nibblePlace_range hn p.1.isLt p.2.isLt
  have hq := nibblePlace_range hn q.1.isLt q.2.isLt
  have hrem : r.val = q.2.val % 4 := by
    by_contra hne
    have hten := h (10, r)
    rw [check_ten hn p.1.isLt p.2.isLt, check_ten hn q.1.isLt q.2.isLt, if_pos hr,
      if_neg hne] at hten
    exact absurd hten one_ne_zero
  have hplace : (nibblePlace n p.1 p.2).toNat % 2 ^ 11 =
      (nibblePlace n q.1 q.2).toNat % 2 ^ 11 := by
    refine mod_eq_of_testBit fun j hj => parity_injective ?_
    have hbit := h (⟨j, by omega⟩, r)
    rwa [check_of_lt hj hr, check_of_lt hj hrem] at hbit
  rw [Nat.mod_eq_of_lt hp.2, Nat.mod_eq_of_lt hq.2] at hplace
  obtain ⟨hindex, hbit⟩ := eq_of_toNat_nibblePlace hn p.1.isLt p.2.isLt q.1.isLt q.2.isLt hplace
    (hr.symm.trans hrem)
  exact Prod.ext (Fin.ext hindex) (Fin.ext hbit)

/-- No syndrome takes part in one check only. -/
theorem not_check_single (hn : n < 128) (p : Fin n × Fin 32) (k : Fin 12 × Fin 4) :
    ¬ ∀ j, check j (bitSyndrome n p.1 p.2) = if j = k then 1 else 0 := by
  intro h
  obtain ⟨r, hr⟩ : ∃ r : Fin 4, r.val = p.2.val % 4 := ⟨⟨_, Nat.mod_lt _ (by decide)⟩, rfl⟩
  have hp := nibblePlace_range hn p.1.isLt p.2.isLt
  -- bit 10 of the place is the single check, so there is no other bit in the place
  have hk : (10, r) = k := by
    by_contra hne
    have hten := h (10, r)
    rw [check_ten hn p.1.isLt p.2.isLt, if_pos hr, if_neg hne] at hten
    exact absurd hten one_ne_zero
  have hplace : (nibblePlace n p.1 p.2).toNat % 2 ^ 11 = 2 ^ 10 % 2 ^ 11 := by
    refine mod_eq_of_testBit fun j hj => parity_injective ?_
    have hbit := h (⟨j, by omega⟩, r)
    have hiff : ((⟨j, by omega⟩, r) : Fin 12 × Fin 4) = (10, r) ↔ 10 = j := by
      rw [Prod.ext_iff, Fin.ext_iff, and_iff_left rfl, eq_comm]
      rfl
    rw [check_of_lt hj hr, ← hk, if_congr hiff rfl rfl] at hbit
    rw [Nat.testBit_two_pow, BitVec.testBit_toNat, hbit, parity]
    exact if_congr (decide_eq_true_iff).symm rfl rfl
  omega

/-- **The code of the UltraScale families** is systematic. -/
theorem systematic (hn : n < 128) :
    Systematic (place he) fun p k => check k (bitSyndrome n p.1 p.2) where
  place_injective := place_injective he
  odd p _ := sum_check_bitSyndrome hn p
  separates _ _ _ _ h := eq_of_check_eq hn (congrFun h)
  ne_single p _ k h := not_check_single hn p k (congrFun h)

/-! Frames that `update` leaves alone. -/

omit he in
theorem getLsbD_highHalf : ∀ i < 32, (0xFFFF0000 : Word).getLsbD i = decide (16 ≤ i) := by decide

theorem getLsbD_maskWord (p : Fin n × Fin 32) (word : Word) :
    (maskWord e p.1 word).getLsbD p.2 =
      (word.getLsbD p.2 && decide (p ∉ checkPlaces (place he))) := by
  simp only [mem_checkPlaces_place, maskWord]
  by_cases hfirst : p.1.val = e
  · rw [if_pos hfirst, BitVec.getLsbD_and, getLsbD_highHalf _ p.2.isLt]
    simp [hfirst]
  · by_cases hsecond : p.1.val = e + 1
    · rw [if_neg hfirst, if_pos hsecond]
      simp [hsecond]
    · simp [hfirst, hsecond]

omit he in
/-- The two words of a frame that is left alone hold its code. -/
theorem words_of_update_eq {frame : List Word} (hfirst : e < frame.length)
    (hsecond : e + 1 < frame.length) (h : update e frame = frame) :
    frame[e] = (frame[e] &&& 0xFFFF0000) ||| (ofFrame e frame >>> 32).setWidth 32 ∧
      frame[e + 1] = (ofFrame e frame).setWidth 32 := by
  have hnew : ((frame.set e ((frame[e] &&& 0xFFFF0000) |||
      (ofFrame e frame >>> 32).setWidth 32)).set (e + 1) ((ofFrame e frame).setWidth 32)) =
        frame := by
    simpa only [update, List.getElem?_eq_getElem hfirst, List.getElem?_eq_getElem hsecond] using h
  constructor
  · have hget := congrArg (·[e]?) hnew
    simp only [List.getElem?_set_ne (Nat.succ_ne_self e), List.getElem?_set_self hfirst,
      List.getElem?_eq_getElem hfirst] at hget
    exact (Option.some.inj hget).symm
  · have hget := congrArg (·[e + 1]?) hnew
    have hlt : e + 1 < (frame.set e ((frame[e] &&& 0xFFFF0000) |||
        (ofFrame e frame >>> 32).setWidth 32)).length := by rwa [List.length_set]
    simp only [List.getElem?_set_self hlt, List.getElem?_eq_getElem hsecond] at hget
    exact (Option.some.inj hget).symm

/-- A frame that is left alone holds its code. -/
theorem bits_place {frame : List Word} (hlength : frame.length = n) (h : update e frame = frame)
    (k : Fin 12 × Fin 4) :
    bits n frame (place he k) = (ofFrame e frame).getLsbD (4 * k.1 + k.2) := by
  have hfirst : e < frame.length := by omega
  have hsecond : e + 1 < frame.length := by omega
  obtain ⟨hhigh, hlow⟩ := words_of_update_eq hfirst hsecond h
  obtain ⟨t, ht⟩ : ∃ t, 4 * k.1.val + k.2.val = t := ⟨_, rfl⟩
  simp only [bits, place, ht]
  by_cases hsmall : t < 32
  · have hword : e + 1 - t / 32 = e + 1 := by omega
    have hbit : t % 32 = t := by omega
    simp only [hword, hbit]
    rw [List.getD_eq_getElem _ _ hsecond, hlow, BitVec.getLsbD_setWidth]
    simp [hsmall]
  · have hword : e + 1 - t / 32 = e := by omega
    have hbit : t % 32 = t - 32 := by omega
    have hback : 32 + (t - 32) = t := by omega
    have hmask : ∀ bit < 16, ((0xFFFF0000 : Nat) : Word).getLsbD bit = false := by decide
    simp only [hword, hbit]
    rw [List.getD_eq_getElem _ _ hfirst, hhigh, BitVec.getLsbD_or, BitVec.getLsbD_and,
      hmask _ (by omega), BitVec.getLsbD_setWidth, BitVec.getLsbD_ushiftRight, hback]
    have hlt : t - 32 < 32 := by omega
    simp [hlt]

theorem isCodeword {frame : List Word} (hlength : frame.length = n) (h : update e frame = frame) :
    IsCodeword (place he) (fun p k => check k (bitSyndrome n p.1 p.2))
      fun p => parity (bits n frame p) := by
  refine isCodeword_bits (fun k => adds_bit _) (getLsbD_maskWord he) hlength fun k => ?_
  rw [bits_place he hlength h]
  subst hlength
  rfl

end UltraScale

/-! ## All families -/

/-- **Two frames with a code differ in at least four bits**, when they differ at all: a wrong bit
can be corrected, and two wrong bits are noticed. -/
theorem four_le_hammingDist_of_update {f : Family} (hf : f ≠ .spartan6) {a b : List Word}
    (ha : a.length = f.wordsPerFrame) (hb : b.length = f.wordsPerFrame) (hafixed : update f a = a)
    (hbfixed : update f b = b) (hne : a ≠ b) :
    4 ≤ hammingDist (bits f.wordsPerFrame a) (bits f.wordsPerFrame b) := by
  cases f with
  | series7 =>
    exact four_le_hammingDist_bits Series7.systematic ha hb (Series7.isCodeword ha hafixed)
      (Series7.isCodeword hb hbfixed) hne
  | ultraScale =>
    have he : UltraScale.eccWord + 1 < Family.wordsPerFrame .ultraScale := by decide
    exact four_le_hammingDist_bits (UltraScale.systematic he (by decide)) ha hb
      (UltraScale.isCodeword he ha hafixed) (UltraScale.isCodeword he hb hbfixed) hne
  | ultraScalePlus =>
    have he : UltraScale.plusEccWord + 1 < Family.wordsPerFrame .ultraScalePlus := by decide
    exact four_le_hammingDist_bits (UltraScale.systematic he (by decide)) ha hb
      (UltraScale.isCodeword he ha hafixed) (UltraScale.isCodeword he hb hbfixed) hne
  | spartan6 => exact absurd rfl hf

/-- A 7-series frame with one bit set besides its code. -/
def oneBit : List Word := update .series7 (1 :: List.replicate 100 0)

theorem four_le_hammingDist_oneBit :
    update .series7 oneBit = oneBit ∧
      4 ≤ hammingDist (bits 101 (List.replicate 101 0)) (bits 101 oneBit) := by
  have hzero : update .series7 (List.replicate 101 0) = List.replicate 101 0 := by decide +kernel
  have hone : update .series7 oneBit = oneBit := by decide +kernel
  exact ⟨hone, four_le_hammingDist_of_update (f := .series7) (by decide) (by decide)
    (by decide +kernel) hzero hone (by decide +kernel)⟩

end FpgaBitstream.Ecc
