import FpgaBitstream.Proofs.BigEndian

/-!
# Words in place

A view shows the words that its bytes hold at multiples of the word length (`getElem?_toList`), and
the bytes are those words and what is left behind the last one (`wordsToBytes_toList`), so a view is
known by its words and the bytes behind them (`ext_words`).  Writing a word replaces that word and
keeps all else (`exists_written`), so words at different indices can be written in either order
(`put_comm`).

`InPlace.get` and `InPlace.set` read and write a word in a buffer byte by byte, and have no result
once they touch a byte outside of it.  They always have one, which is that of the view
(`InPlace.run_get`, `InPlace.run_set`), and a write that is refused leaves the buffer as it was.  The
laws of both are `viewLaws`.
-/

namespace FpgaBitstream

open BigEndian

/-! ## Bytes replaced by as many others -/

section Replaced
variable {α : Type} {front old new rest : List α}

theorem drop_replaced (hlength : new.length = old.length) {place : Nat}
    (h : front.length + old.length ≤ place) :
    (front ++ new ++ rest).drop place = (front ++ old ++ rest).drop place := by
  have hbehind {middle : List α} (hmiddle : middle.length = old.length) :
      (front ++ middle ++ rest).drop place = rest.drop (place - (front.length + old.length)) := by
    have hlength : (front ++ middle).length = front.length + old.length := by
      rw [List.length_append, hmiddle]
    rw [List.drop_append, hlength, List.drop_of_length_le (hlength ▸ h), List.nil_append]
  rw [hbehind hlength, hbehind rfl]

theorem take_drop_replaced (hlength : new.length = old.length) {place count : Nat}
    (h : place + count ≤ front.length ∨ front.length + old.length ≤ place) :
    ((front ++ new ++ rest).drop place).take count =
      ((front ++ old ++ rest).drop place).take count := by
  rcases h with hbefore | hbehind
  · have hfront (tail : List α) :
        ((front ++ tail).drop place).take count = (front.drop place).take count := by
      rw [List.drop_append_of_le_length (by omega)]
      apply List.take_append_of_le_length
      rw [List.length_drop]
      omega
    rw [List.append_assoc, List.append_assoc, hfront, hfront]
  · rw [drop_replaced hlength hbehind]

end Replaced

namespace BigEndianView

variable {n : Nat}

/-! ## The words of a view -/

/-- **The bytes of a word** lie in the buffer. -/
theorem place_le {view : BigEndianView n} {index : Nat} (h : index < view.length) :
    index * n + n ≤ view.bytes.length := by
  calc index * n + n = (index + 1) * n := (Nat.succ_mul index n).symm
    _ ≤ view.length * n := Nat.mul_le_mul_right n h
    _ ≤ view.bytes.length := Nat.div_mul_le_self _ _

/-- The bytes of two words of a view do not overlap. -/
theorem place_cases (n : Nat) {i j : Nat} (h : i ≠ j) : i * n + n ≤ j * n ∨ j * n + n ≤ i * n := by
  rw [← Nat.succ_mul, ← Nat.succ_mul]
  rcases Nat.lt_or_gt_of_ne h with hlt | hgt
  · exact .inl (Nat.mul_le_mul_right n hlt)
  · exact .inr (Nat.mul_le_mul_right n hgt)

theorem decodeOnto_eq (done : List (BitVec (8 * n))) (count : Nat) (bytes : List UInt8) :
    decodeOnto n done count bytes =
      done.reverse ++ (List.range count).map fun i => decode n ((bytes.drop (i * n)).take n) := by
  induction count generalizing done bytes with
  | zero => simp [decodeOnto]
  | succ count ih =>
    have hplace (i : Nat) : (bytes.drop n).drop (i * n) = bytes.drop (i.succ * n) := by
      rw [List.drop_drop, Nat.succ_mul, Nat.add_comm]
    rw [decodeOnto, ih, List.range_succ_eq_map, List.map_cons, List.map_map, List.reverse_cons,
      List.append_assoc, Nat.zero_mul, List.drop_zero]
    simp only [hplace, Function.comp_def, List.singleton_append]

theorem toList_eq_map (view : BigEndianView n) :
    view.toList =
      (List.range view.length).map fun i => decode n ((view.bytes.drop (i * n)).take n) := by
  rw [toList, decodeOnto_eq]
  rfl

/-- **The words in order** are those at the indices from zero on. -/
theorem getElem?_toList (view : BigEndianView n) (i : Nat) : view.toList[i]? = view.get? i := by
  rw [toList_eq_map, List.getElem?_map, get?]
  by_cases h : i < view.length
  · rw [List.getElem?_range h, if_pos h]
    rfl
  · rw [List.getElem?_eq_none (by rwa [List.length_range, ← Nat.not_lt]), if_neg h]
    rfl

/-- The first so many words of a buffer, as bytes, are its first bytes. -/
theorem flatMap_range_take (bytes : List UInt8) (n count : Nat) :
    ((List.range count).flatMap fun i => (bytes.drop (i * n)).take n) = bytes.take (count * n) := by
  induction count with
  | zero => simp
  | succ count ih =>
    rw [List.range_succ, List.flatMap_append, ih, List.flatMap_singleton, Nat.succ_mul,
      List.take_add]

/-- **The bytes of the words** are the buffer without its last bytes, if these fill no word. -/
theorem wordsToBytes_toList (view : BigEndianView n) :
    wordsToBytes n view.toList = view.bytes.take (view.length * n) := by
  rw [toList_eq_map, wordsToBytes, List.flatMap_map, ← flatMap_range_take]
  refine List.flatMap_congr fun i hi => ?_
  apply encode_decode
  have hplace := place_le (List.mem_range.1 hi)
  rw [List.length_take_of_le]
  rw [List.length_drop]
  omega

/-- The bytes behind the last word. -/
def trailing (view : BigEndianView n) : List UInt8 := view.bytes.drop (view.length * n)

/-- **Two views are equal** if they have the same words and the same bytes behind them. -/
theorem ext_words {a b : BigEndianView n} (hwords : a.toList = b.toList)
    (htrailing : a.trailing = b.trailing) : a = b := by
  have hbytes (view : BigEndianView n) :
      view.bytes = wordsToBytes n view.toList ++ view.trailing := by
    rw [wordsToBytes_toList, trailing, List.take_append_drop]
  have hsame : a.bytes = b.bytes := by rw [hbytes a, hbytes b, hwords, htrailing]
  cases a
  cases b
  exact congrArg mk hsame

/-! ## Writing a word -/

/-- One word of a view is replaced and all else is kept: the other words, the bytes behind the last
word, and the length of the buffer. -/
structure Written (view : BigEndianView n) (index : Nat) (word : BitVec (8 * n))
    (written : BigEndianView n) : Prop where
  within : index < view.length
  here : written.get? index = some word
  others (i : Nat) (h : i ≠ index) : written.get? i = view.get? i
  trailing : written.trailing = view.trailing
  size : written.bytes.length = view.bytes.length

theorem Written.length {view written : BigEndianView n} {index : Nat} {word : BitVec (8 * n)}
    (h : Written view index word written) : written.length = view.length :=
  congrArg (· / n) h.size

/-- The buffer is what stands in front of a word, the bytes of the word, and what stands behind. -/
theorem exists_split {view : BigEndianView n} {index : Nat} (h : index < view.length) :
    ∃ front old rest, view.bytes = front ++ old ++ rest ∧ front.length = index * n ∧
      old.length = n := by
  have hplace := place_le h
  refine ⟨view.bytes.take (index * n), (view.bytes.drop (index * n)).take n,
    (view.bytes.drop (index * n)).drop n, ?_, ?_, ?_⟩
  · rw [List.append_assoc, List.take_append_drop, List.take_append_drop]
  · rw [List.length_take_of_le (by omega)]
  · rw [List.length_take_of_le]
    rw [List.length_drop]
    omega

theorem set?_of_split {front old rest : List UInt8} {index : Nat} (word : BitVec (8 * n))
    (hfront : front.length = index * n) (hold : old.length = n)
    (h : index < (mk (n := n) (front ++ old ++ rest)).length) :
    (mk (n := n) (front ++ old ++ rest)).set? index word =
      some ⟨front ++ encode n word ++ rest⟩ := by
  have hbehind : index * n + n = (front ++ old).length := by
    rw [List.length_append, hfront, hold]
  rw [set?, if_pos h, hbehind, List.drop_left, List.append_assoc front, ← hfront, List.take_left]

theorem written_of_split {front old rest : List UInt8} {index : Nat} (word : BitVec (8 * n))
    (hfront : front.length = index * n) (hold : old.length = n)
    (h : index < (mk (n := n) (front ++ old ++ rest)).length) :
    Written (mk (n := n) (front ++ old ++ rest)) index word ⟨front ++ encode n word ++ rest⟩ := by
  have hlength : (encode n word).length = old.length := (length_encode word).trans hold.symm
  have hsize : (front ++ encode n word ++ rest).length = (front ++ old ++ rest).length := by
    simp only [List.length_append, hlength]
  have hcount : (mk (n := n) (front ++ encode n word ++ rest)).length =
      (mk (n := n) (front ++ old ++ rest)).length := congrArg (· / n) hsize
  refine ⟨h, ?_, fun i hi => ?_, ?_, hsize⟩
  · have hword : ((front ++ encode n word ++ rest).drop (index * n)).take n = encode n word := by
      rw [List.append_assoc, ← hfront, List.drop_left, List.take_left' (length_encode word)]
    rw [get?, if_pos (hcount ▸ h), hword, decode_encode]
  · have happart : i * n + n ≤ front.length ∨ front.length + old.length ≤ i * n := by
      rw [hfront, hold]
      exact place_cases n hi
    rw [get?, get?, hcount, take_drop_replaced hlength happart]
  · have hbehind : front.length + old.length ≤ (mk (n := n) (front ++ old ++ rest)).length * n := by
      rw [hfront, hold, ← Nat.succ_mul]
      exact Nat.mul_le_mul_right n h
    rw [BigEndianView.trailing, BigEndianView.trailing, hcount]
    exact drop_replaced hlength hbehind

/-- **A word is written** where it lies in the view, and this replaces just that word. -/
theorem exists_written {view : BigEndianView n} {index : Nat} (h : index < view.length)
    (word : BitVec (8 * n)) :
    ∃ written, view.set? index word = some written ∧ Written view index word written := by
  obtain ⟨front, old, rest, hbytes, hfront, hold⟩ := exists_split h
  obtain rfl : view = ⟨front ++ old ++ rest⟩ := congrArg mk hbytes
  exact ⟨_, set?_of_split word hfront hold h, written_of_split word hfront hold h⟩

theorem set?_of_le {view : BigEndianView n} {index : Nat} (h : view.length ≤ index)
    (word : BitVec (8 * n)) : view.set? index word = none := by
  rw [set?, if_neg (Nat.not_lt.2 h)]

/-- The view after a word was written, or the view itself where the index lies outside of it. -/
def put (view : BigEndianView n) (index : Nat) (word : BitVec (8 * n)) : BigEndianView n :=
  (view.set? index word).getD view

theorem written_put {view : BigEndianView n} {index : Nat} (h : index < view.length)
    (word : BitVec (8 * n)) : Written view index word (view.put index word) := by
  obtain ⟨written, hset, hwritten⟩ := exists_written h word
  rwa [put, hset]

theorem put_of_le {view : BigEndianView n} {index : Nat} (h : view.length ≤ index)
    (word : BitVec (8 * n)) : view.put index word = view := by
  rw [put, set?_of_le h]
  rfl

@[simp] theorem length_put (view : BigEndianView n) (index : Nat) (word : BitVec (8 * n)) :
    (view.put index word).length = view.length := by
  rcases Nat.lt_or_ge index view.length with h | h
  · exact (written_put h word).length
  · rw [put_of_le h]

@[simp] theorem trailing_put (view : BigEndianView n) (index : Nat) (word : BitVec (8 * n)) :
    (view.put index word).trailing = view.trailing := by
  rcases Nat.lt_or_ge index view.length with h | h
  · exact (written_put h word).trailing
  · rw [put_of_le h]

theorem get?_put (view : BigEndianView n) (index : Nat) (word : BitVec (8 * n)) (i : Nat) :
    (view.put index word).get? i =
      if i = index ∧ i < view.length then some word else view.get? i := by
  rcases Nat.lt_or_ge index view.length with h | h
  · by_cases hi : i = index
    · subst hi
      rw [if_pos ⟨rfl, h⟩, (written_put h word).here]
    · rw [if_neg fun hand => hi hand.1, (written_put h word).others i hi]
  · have hnot : ¬ (i = index ∧ i < view.length) := by omega
    rw [if_neg hnot, put_of_le h]

/-- **Words at different indices** can be written in either order. -/
theorem put_comm {i j : Nat} (h : i ≠ j) (view : BigEndianView n) (x y : BitVec (8 * n)) :
    (view.put i x).put j y = (view.put j y).put i x := by
  apply ext_words
  · apply List.ext_getElem?
    intro k
    simp only [getElem?_toList, get?_put, length_put]
    by_cases hi : k = i ∧ k < view.length
    · have hj : ¬ (k = j ∧ k < view.length) := fun hj => h (hi.1.symm.trans hj.1)
      rw [if_neg hj, if_pos hi, if_pos hi]
    · rw [if_neg hi, if_neg hi]
  · simp only [trailing_put]

/-! ## Byte by byte -/

/-- A program on a byte buffer. It has no result once it touches a byte outside of the buffer. -/
abbrev InPlace := StateT (List UInt8) Option

namespace InPlace

/-- The number of whole words in the buffer. -/
def length (n : Nat) : InPlace Nat := fun buffer => some (buffer.length / n, buffer)

/-- Reads one byte. -/
def readByte (place : Nat) : InPlace UInt8 := fun buffer =>
  buffer[place]?.map fun byte => (byte, buffer)

/-- Writes one byte. -/
def writeByte (place : Nat) (byte : UInt8) : InPlace Unit := fun buffer =>
  if place < buffer.length then some ((), buffer.set place byte) else none

/-- Reads bytes from a place on. -/
def readBytes (place : Nat) : Nat → InPlace (List UInt8)
  | 0 => return []
  | count + 1 => return (← readByte place) :: (← readBytes (place + 1) count)

/-- Writes bytes from a place on. -/
def writeBytes (place : Nat) : List UInt8 → InPlace Unit
  | [] => return
  | byte :: rest => do
    writeByte place byte
    writeBytes (place + 1) rest

/-- Reads the word at an index, if there is one. -/
def get (n index : Nat) : InPlace (Option (BitVec (8 * n))) := do
  if (← length n) ≤ index then return none
  return some (decode n (← readBytes (index * n) n))

/-- Writes the word at an index, if there is one, and says whether there was. -/
def set (n index : Nat) (word : BitVec (8 * n)) : InPlace Bool := do
  if (← length n) ≤ index then return false
  writeBytes (index * n) (encode n word)
  return true

/-- Where the first program has a result, the second goes on with it. -/
theorem run_bind {α β : Type} {x : InPlace α} {a : α} {buffer buffer' : List UInt8}
    (h : x.run buffer = some (a, buffer')) (next : α → InPlace β) :
    (x >>= next).run buffer = (next a).run buffer' := by
  rw [StateT.run_bind, h]
  rfl

theorem run_readBytes (front middle rest : List UInt8) :
    (readBytes front.length middle.length).run (front ++ middle ++ rest) =
      some (middle, front ++ middle ++ rest) := by
  induction middle generalizing front with
  | nil => rfl
  | cons byte middle ih =>
    have hbuffer : front ++ byte :: middle ++ rest = front ++ [byte] ++ middle ++ rest := by simp
    have hbyte : (readByte front.length).run (front ++ byte :: middle ++ rest) =
        some (byte, front ++ byte :: middle ++ rest) := by
      rw [StateT.run, readByte]
      simp
    have hplace : front.length + 1 = (front ++ [byte]).length := by simp
    rw [List.length_cons, readBytes, run_bind hbyte, hplace, hbuffer, run_bind (ih _)]
    rfl

theorem run_writeBytes {front old word : List UInt8} (rest : List UInt8)
    (hlength : word.length = old.length) :
    (writeBytes front.length word).run (front ++ old ++ rest) =
      some ((), front ++ word ++ rest) := by
  induction word generalizing front old with
  | nil =>
    obtain rfl := List.length_eq_zero_iff.1 hlength.symm
    rfl
  | cons byte word ih =>
    cases old with
    | nil => cases hlength
    | cons first old =>
      have hbyte : (writeByte front.length byte).run (front ++ first :: old ++ rest) =
          some ((), front ++ [byte] ++ old ++ rest) := by
        rw [StateT.run, writeByte, if_pos (by simp)]
        simp
      have hplace : front.length + 1 = (front ++ [byte]).length := by simp
      rw [writeBytes, run_bind hbyte, hplace, ih (Nat.succ.inj hlength)]
      simp

/-- **Reading a word byte by byte** touches no byte outside of the buffer. -/
theorem run_get (view : BigEndianView n) (index : Nat) :
    (get n index).run view.bytes = some (view.get? index, view.bytes) := by
  have hlength : (length n).run view.bytes = some (view.length, view.bytes) := rfl
  rw [get, run_bind hlength, get?]
  rcases Nat.lt_or_ge index view.length with h | h
  · obtain ⟨front, old, rest, hbytes, hfront, hold⟩ := exists_split h
    have hread := run_readBytes front old rest
    have hword : ((front ++ old ++ rest).drop (index * n)).take n = old := by
      rw [List.append_assoc, ← hfront, List.drop_left, List.take_left' hold]
    rw [← hbytes, hfront, hold] at hread
    rw [if_neg (Nat.not_le.2 h), if_pos h, run_bind hread, hbytes, hword]
    rfl
  · rw [if_pos h, if_neg (Nat.not_lt.2 h)]
    rfl

/-- **Writing a word byte by byte** touches no byte outside of the buffer, and none at all where it
is refused. -/
theorem run_set (view : BigEndianView n) (index : Nat) (word : BitVec (8 * n)) :
    (set n index word).run view.bytes =
      some (decide (index < view.length), (view.put index word).bytes) := by
  have hlength : (length n).run view.bytes = some (view.length, view.bytes) := rfl
  rw [set, run_bind hlength]
  rcases Nat.lt_or_ge index view.length with h | h
  · obtain ⟨front, old, rest, hbytes, hfront, hold⟩ := exists_split h
    obtain rfl : view = ⟨front ++ old ++ rest⟩ := congrArg mk hbytes
    have hwrite : (writeBytes (index * n) (encode n word)).run (front ++ old ++ rest) =
        some ((), front ++ encode n word ++ rest) := by
      rw [← hfront]
      exact run_writeBytes rest ((length_encode word).trans hold.symm)
    rw [if_neg (Nat.not_le.2 h), run_bind hwrite, put, set?_of_split word hfront hold h,
      decide_eq_true h]
    rfl
  · rw [if_pos h, put_of_le h, decide_eq_false (Nat.not_lt.2 h)]
    rfl

/-- **Writes at different indices commute**, also where one or both of them are refused. -/
theorem set_comm {i j : Nat} (h : i ≠ j) (x y : BitVec (8 * n)) :
    (do let first ← set n i x; let second ← set n j y; return (first, second) : InPlace _) =
      do let second ← set n j y; let first ← set n i x; return (first, second) := by
  funext buffer
  have hforth := run_set (mk (n := n) buffer) i x
  have hback := run_set (mk (n := n) buffer) j y
  show StateT.run _ _ = StateT.run _ _
  rw [run_bind hforth, run_bind (run_set _ j y), run_bind hback, run_bind (run_set _ i x),
    length_put, length_put, put_comm h]

end InPlace

/-- **The laws of big-endian views.**  A view lists as many words as its buffer has room for, those
at its indices; written one after the other they are the buffer without the bytes behind them, and
the bytes of a run of words are listed as that run.  A word is written just where its index lies in
the view, which replaces that word and keeps the others, the bytes behind them and the length of the
buffer; elsewhere the buffer stays as it was.  Writes at different indices commute. -/
theorem viewLaws (n : Nat) (hn : 0 < n) :
    (∀ view : BigEndianView n,
      view.toList.length = view.bytes.length / n ∧ (∀ i, view.toList[i]? = view.get? i) ∧
        wordsToBytes n view.toList = view.bytes.take (view.bytes.length / n * n)) ∧
    (∀ words : List (BitVec (8 * n)), (mk (wordsToBytes n words)).toList = words) ∧
    (∀ (view : BigEndianView n) (index : Nat),
      (InPlace.get n index).run view.bytes = some (view.get? index, view.bytes)) ∧
    (∀ (view : BigEndianView n) (index : Nat) (word : BitVec (8 * n)),
      (index < view.length → ∃ written, view.set? index word = some written ∧
        Written view index word written ∧
        (InPlace.set n index word).run view.bytes = some (true, written.bytes)) ∧
      (view.length ≤ index → view.set? index word = none ∧
        (InPlace.set n index word).run view.bytes = some (false, view.bytes))) ∧
    ∀ (i j : Nat) (x y : BitVec (8 * n)), i ≠ j →
      (do let first ← InPlace.set n i x; let second ← InPlace.set n j y; return (first, second) :
          InPlace (Bool × Bool)) =
        do let second ← InPlace.set n j y; let first ← InPlace.set n i x; return (first, second) := by
  refine ⟨fun view => ⟨length_toList view, getElem?_toList view, wordsToBytes_toList view⟩,
    toList_wordsToBytes hn, InPlace.run_get, fun view index word => ⟨fun h => ?_, fun h => ?_⟩,
    fun i j x y h => InPlace.set_comm h x y⟩
  · obtain ⟨written, hset, hwritten⟩ := exists_written h word
    have hrun := InPlace.run_set view index word
    rw [put, hset, decide_eq_true h] at hrun
    exact ⟨written, hset, hwritten, hrun⟩
  · have hrun := InPlace.run_set view index word
    rw [put_of_le h, decide_eq_false (Nat.not_lt.2 h)] at hrun
    exact ⟨set?_of_le h word, hrun⟩

/-- Two words of two bytes and half a word, written to at the last word and behind it. -/
theorem viewLaws_halfWord :
    (mk (n := 2) (wordsToBytes 2 [0xAA99, 0x5566])).toList = [0xAA99, 0x5566] ∧
    (InPlace.set 2 1 0x2000).run [0xAA, 0x99, 0x55, 0x66, 0x30] =
      some (true, [0xAA, 0x99, 0x20, 0x00, 0x30]) ∧
    (InPlace.set 2 2 0x2000).run [0xAA, 0x99, 0x55, 0x66, 0x30] =
      some (false, [0xAA, 0x99, 0x55, 0x66, 0x30]) ∧
    (do let first ← InPlace.set 2 1 0x2000; let second ← InPlace.set 2 2 7; return (first, second) :
        InPlace (Bool × Bool)) =
      do let second ← InPlace.set 2 2 7; let first ← InPlace.set 2 1 0x2000; return (first, second)
    := by
  obtain ⟨-, hwords, -, hset, hcomm⟩ := viewLaws 2 (by decide)
  let view : BigEndianView 2 := ⟨[0xAA, 0x99, 0x55, 0x66, 0x30]⟩
  obtain ⟨written, hwritten, -, hrun⟩ := (hset view 1 0x2000).1 (by decide)
  have hbytes : written = ⟨[0xAA, 0x99, 0x20, 0x00, 0x30]⟩ := by
    have hcomputed : view.set? 1 0x2000 = some ⟨[0xAA, 0x99, 0x20, 0x00, 0x30]⟩ := by decide
    exact Option.some.inj (hwritten.symm.trans hcomputed)
  subst hbytes
  exact ⟨hwords [0xAA99, 0x5566], hrun, ((hset view 2 0x2000).2 (by decide)).2,
    hcomm 1 2 0x2000 7 (by decide)⟩

end BigEndianView
end FpgaBitstream
