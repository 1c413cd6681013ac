import FpgaBitstream.BigEndian
import Mathlib.Algebra.Group.Nat.Defs
import Mathlib.Data.List.Infix

/-!
# Laws of big-endian words

A word is its bytes read as a number to base 256 (`decode_encode`, `encode_decode`), and a view over
the bytes of a run of words holds exactly that run (`toList_wordsToBytes`).  The bytes of a run are
the bytes of its parts, one after the other.  A buffer that is cut off keeps its first words
(`toList_isPrefix`).
-/

namespace FpgaBitstream
namespace BigEndian

variable {n : Nat}

/-! ## One word -/

@[simp] theorem length_encode (word : BitVec (8 * n)) : (encode n word).length = n := by
  simp [encode]

/-- The bytes of a number, most significant first, are its digits to base 256.  The fold starts
at any value, as the digits further up are already in it. -/
theorem foldl_digits (n number value : Nat) :
    ((List.range n).map fun i => UInt8.ofNat (number >>> (8 * (n - 1 - i)))).foldl
        (fun value byte => value * 256 + byte.toNat) value =
      value * 256 ^ n + number % 256 ^ n := by
  induction n generalizing value with
  | zero => simp [Nat.mod_one]
  | succ n ih =>
    have htail : (List.range n).map ((fun i => UInt8.ofNat (number >>> (8 * (n + 1 - 1 - i)))) ∘
        Nat.succ) = (List.range n).map fun i => UInt8.ofNat (number >>> (8 * (n - 1 - i))) := by
      refine List.map_congr_left fun i _ => ?_
      rw [Function.comp, show n + 1 - 1 - i.succ = n - 1 - i by omega]
    have hhead : (UInt8.ofNat (number >>> (8 * (n + 1 - 1 - 0)))).toNat =
        number / 256 ^ n % 256 := by
      rw [UInt8.toNat_ofNat', Nat.shiftRight_eq_div_pow, Nat.pow_mul]
      rfl
    rw [List.range_succ_eq_map, List.map_cons, List.foldl_cons, List.map_map, htail, ih, hhead,
      Nat.pow_succ, Nat.mod_mul]
    calc (value * 256 + number / 256 ^ n % 256) * 256 ^ n + number % 256 ^ n
        = value * 256 * 256 ^ n + number / 256 ^ n % 256 * 256 ^ n + number % 256 ^ n := by
          rw [Nat.add_mul]
      _ = value * (256 ^ n * 256) +
            (number % 256 ^ n + 256 ^ n * (number / 256 ^ n % 256)) := by
          rw [Nat.mul_assoc, Nat.mul_comm 256, Nat.mul_comm (number / 256 ^ n % 256),
            Nat.add_assoc, Nat.add_comm (256 ^ n * _)]

/-- The bytes of a word spell it. -/
@[simp] theorem decode_encode (word : BitVec (8 * n)) : decode n (encode n word) = word := by
  have hword : word.toNat < 256 ^ n := by
    have := word.isLt
    rwa [Nat.pow_mul] at this
  refine BitVec.eq_of_toNat_eq ?_
  rw [decode, encode, foldl_digits, BitVec.toNat_ofNat, Nat.zero_mul, Nat.zero_add,
    Nat.mod_eq_of_lt hword, Nat.mod_eq_of_lt word.isLt]

/-- A run of digits read behind a value stays below the next value. -/
theorem foldl_digits_lt (bytes : List UInt8) (value : Nat) :
    bytes.foldl (fun value byte => value * 256 + byte.toNat) value <
      (value + 1) * 256 ^ bytes.length := by
  induction bytes generalizing value with
  | nil => simp
  | cons byte bytes ih =>
    have hbyte := byte.toNat_lt
    calc bytes.foldl (fun value byte => value * 256 + byte.toNat) (value * 256 + byte.toNat)
        < (value * 256 + byte.toNat + 1) * 256 ^ bytes.length := ih _
      _ ≤ ((value + 1) * 256) * 256 ^ bytes.length := Nat.mul_le_mul_right _ (by omega)
      _ = (value + 1) * 256 ^ (bytes.length + 1) := by
          rw [Nat.mul_assoc, Nat.pow_succ, Nat.mul_comm 256]

/-- Two runs of digits that are as long and give one number are one run behind one value. -/
theorem eq_of_foldl_digits {bytes bytes' : List UInt8} (hlength : bytes.length = bytes'.length)
    {value value' : Nat}
    (h : bytes.foldl (fun value byte => value * 256 + byte.toNat) value =
      bytes'.foldl (fun value byte => value * 256 + byte.toNat) value') :
    value = value' ∧ bytes = bytes' := by
  induction bytes generalizing bytes' value value' with
  | nil =>
    rw [List.length_nil, eq_comm, List.length_eq_zero_iff] at hlength
    subst hlength
    exact ⟨h, rfl⟩
  | cons byte bytes ih =>
    cases bytes' with
    | nil => simp at hlength
    | cons byte' bytes' =>
      obtain ⟨hnumber, rfl⟩ := ih (Nat.succ.inj hlength) h
      have hbyte := byte.toNat_lt
      have hbyte' := byte'.toNat_lt
      dsimp only at hnumber
      have hsame : byte = byte' := UInt8.toNat_inj.mp (by omega)
      exact ⟨by omega, by rw [hsame]⟩

/-- The number of a word that its bytes spell. -/
theorem toNat_decode {bytes : List UInt8} (hlength : bytes.length = n) :
    (decode n bytes).toNat = bytes.foldl (fun value byte => value * 256 + byte.toNat) 0 := by
  have hlt := foldl_digits_lt bytes 0
  rw [hlength, Nat.zero_add, Nat.one_mul, ← Nat.pow_mul 2 8 n] at hlt
  rw [decode, BitVec.toNat_ofNat, Nat.mod_eq_of_lt hlt]

/-- Bytes are those of the word that they spell. -/
theorem encode_decode {bytes : List UInt8} (hlength : bytes.length = n) :
    encode n (decode n bytes) = bytes := by
  have hnumber := congrArg BitVec.toNat (decode_encode (decode n bytes))
  rw [toNat_decode (length_encode _), toNat_decode hlength] at hnumber
  exact (eq_of_foldl_digits ((length_encode _).trans hlength.symm) hnumber).2

/-- Bytes that are enough for a word start with the bytes of one. -/
theorem exists_encode_append {bytes : List UInt8} (hlength : n ≤ bytes.length) :
    ∃ word rest, bytes = encode n word ++ rest := by
  have htake : (bytes.take n).length = n := List.length_take_of_le hlength
  refine ⟨decode n (bytes.take n), bytes.drop n, ?_⟩
  rw [encode_decode htake, List.take_append_drop]

/-! ## Runs of words -/

@[simp] theorem wordsToBytes_append (front rest : List (BitVec (8 * n))) :
    wordsToBytes n (front ++ rest) = wordsToBytes n front ++ wordsToBytes n rest := by
  simp [wordsToBytes]

@[simp] theorem length_wordsToBytes (words : List (BitVec (8 * n))) :
    (wordsToBytes n words).length = words.length * n := by
  induction words with
  | nil => simp [wordsToBytes]
  | cons word words ih =>
    rw [wordsToBytes, List.flatMap_cons, List.length_append, length_encode, ← wordsToBytes, ih,
      List.length_cons, Nat.add_comm n (words.length * n)]
    exact (Nat.succ_mul _ _).symm

theorem decodeOnto_wordsToBytes (done words : List (BitVec (8 * n))) :
    decodeOnto n done words.length (wordsToBytes n words) = done.reverse ++ words := by
  induction words generalizing done with
  | nil => simp [decodeOnto]
  | cons word words ih =>
    have hbytes : wordsToBytes n (word :: words) = encode n word ++ wordsToBytes n words := by
      simp [wordsToBytes]
    have htake : (encode n word ++ wordsToBytes n words).take n = encode n word :=
      List.take_left' (length_encode word)
    have hdrop : (encode n word ++ wordsToBytes n words).drop n = wordsToBytes n words :=
      List.drop_left' (length_encode word)
    rw [hbytes, List.length_cons, decodeOnto, htake, hdrop, decode_encode, ih]
    simp

/-- A view over the bytes of words holds those words. -/
theorem toList_wordsToBytes (hn : 0 < n) (words : List (BitVec (8 * n))) :
    (BigEndianView.mk (wordsToBytes n words)).toList = words := by
  have hlength : (wordsToBytes n words).length / n = words.length := by
    rw [length_wordsToBytes, Nat.mul_div_cancel _ hn]
  rw [BigEndianView.toList, BigEndianView.length, hlength, decodeOnto_wordsToBytes]
  rfl

theorem length_decodeOnto (done : List (BitVec (8 * n))) (count : Nat) (bytes : List UInt8) :
    (decodeOnto n done count bytes).length = done.length + count := by
  induction count generalizing done bytes with
  | zero => exact List.length_reverse
  | succ count ih => rw [decodeOnto, ih, List.length_cons, Nat.succ_add, Nat.add_succ]

/-- A view has as many words as there are whole ones in its buffer. -/
theorem length_toList (view : BigEndianView n) : view.toList.length = view.length := by
  rw [BigEndianView.toList, length_decodeOnto, List.length_nil, Nat.zero_add]

/-! ## Cut-off buffers -/

theorem reverse_isPrefix_decodeOnto (done : List (BitVec (8 * n))) (count : Nat)
    (bytes : List UInt8) : done.reverse <+: decodeOnto n done count bytes := by
  induction count generalizing done bytes with
  | zero => exact List.prefix_rfl
  | succ count ih =>
    have hmore : done.reverse <+: (decode n (bytes.take n) :: done).reverse := by
      rw [List.reverse_cons]
      exact List.prefix_append _ _
    exact hmore.trans (ih _ _)

/-- The whole words of a cut-off buffer are the first words of the buffer. -/
theorem decodeOnto_isPrefix {cut bytes : List UInt8} (hcut : cut <+: bytes) {count : Nat}
    (hcount : count * n ≤ cut.length) (more : Nat) (done : List (BitVec (8 * n))) :
    decodeOnto n done count cut <+: decodeOnto n done (count + more) bytes := by
  induction count generalizing cut bytes done with
  | zero => exact reverse_isPrefix_decodeOnto done _ bytes
  | succ count ih =>
    rw [Nat.succ_mul] at hcount
    have hword : cut.take n = bytes.take n := by
      obtain ⟨rest, rfl⟩ := hcut
      exact (List.take_append_of_le_length (by omega)).symm
    rw [Nat.succ_add, decodeOnto, decodeOnto, hword]
    exact ih (hcut.drop n) (by rw [List.length_drop]; omega) _

theorem toList_isPrefix {cut bytes : List UInt8} (hcut : cut <+: bytes) :
    (BigEndianView.mk (n := n) cut).toList <+: (BigEndianView.mk bytes).toList := by
  obtain ⟨more, hmore⟩ := Nat.exists_eq_add_of_le (Nat.div_le_div_right (c := n) hcut.length_le)
  rw [BigEndianView.toList, BigEndianView.toList, BigEndianView.length, BigEndianView.length, hmore]
  exact decodeOnto_isPrefix hcut (Nat.div_mul_le_self _ _) more []

/-- **Bytes behind whole words that do not fill a word** are no part of the view. -/
theorem toList_append_of_lt {bytes extra : List UInt8} (hwhole : n ∣ bytes.length)
    (hshort : extra.length < n) :
    (BigEndianView.mk (n := n) (bytes ++ extra)).toList = (BigEndianView.mk bytes).toList := by
  have hpos : 0 < n := Nat.zero_lt_of_lt hshort
  have hcount : (bytes ++ extra).length / n = bytes.length / n := by
    obtain ⟨count, hcount⟩ := hwhole
    rw [List.length_append, hcount, Nat.mul_add_div hpos, Nat.mul_div_cancel_left _ hpos,
      Nat.div_eq_of_lt hshort, Nat.add_zero]
  have hlength : (BigEndianView.mk (n := n) bytes).toList.length =
      (BigEndianView.mk (n := n) (bytes ++ extra)).toList.length := by
    rw [length_toList, length_toList]
    exact hcount.symm
  exact ((toList_isPrefix (List.prefix_append bytes extra)).eq_of_length hlength).symm

end BigEndian
end FpgaBitstream
