import FpgaBitstream.Text.Blank
import FpgaBitstream.Proofs.BitHeader
import Mathlib.Data.List.TakeWhile

/-!
# Texts in pieces

A text is cut at its separators (`Text.splitAt_eq_splitOnP`).  The pieces that are not empty are its
tokens (`Text.tokens`): those of two texts with a separator between them are the tokens of the one
and then of the other (`Text.tokens_append_cons`), so separators at the end make no difference
(`Text.tokens_append_of_forall`).  Trimming takes blanks off both ends and nothing else
(`Text.exists_trail`), and leaves the first character that is not blank in front
(`Text.head?_trim`).  No byte of another character is that of a newline, so the bytes of a text are
cut at newlines where the text is (`Utf8.splitOnP_encode`).
-/

namespace FpgaBitstream

namespace Text

/-! ## Cutting at separators -/

section Pieces
variable {α : Type} {separates : α → Bool}

theorem splitOnto_eq (done : List (List α)) (piece text : List α) :
    splitOnto separates done piece text =
      done.reverse ++ text.splitOnPPrepend separates piece := by
  induction text generalizing done piece with
  | nil => simp [splitOnto]
  | cons x rest ih =>
    rw [splitOnto]
    by_cases hx : separates x
    · rw [if_pos hx, ih, List.splitOnPPrepend_cons_pos hx, List.reverse_cons, List.append_assoc]
      rfl
    · rw [if_neg hx, ih, List.splitOnPPrepend_cons_neg (by simpa using hx)]

theorem splitAt_eq_splitOnP (text : List α) : splitAt separates text = text.splitOnP separates :=
  splitOnto_eq [] [] text

/-- What comes before the first separator goes to the first piece. -/
theorem splitOnP_append_of_forall {front : List α} (h : ∀ x ∈ front, separates x = false)
    (rest : List α) :
    (front ++ rest).splitOnP separates = (rest.splitOnP separates).modifyHead (front ++ ·) := by
  induction front with
  | nil => exact (congrFun List.modifyHead_id _).symm
  | cons x front ih =>
    rw [List.cons_append, List.splitOnP_cons_eq_if_modifyHead, h x List.mem_cons_self,
      ih fun y hy => h y (List.mem_cons_of_mem _ hy), if_neg Bool.false_ne_true,
      List.modifyHead_modifyHead]
    rfl

/-- The pieces of a text that are not empty. -/
def tokens (separates : α → Bool) (text : List α) : List (List α) :=
  (text.splitOnP separates).filter fun token => !token.isEmpty

theorem tokens_nil : tokens separates ([] : List α) = [] := rfl

theorem tokens_append_cons (front rest : List α) {x : α} (hx : separates x) :
    tokens separates (front ++ x :: rest) = tokens separates front ++ tokens separates rest := by
  rw [tokens, List.splitOnP_append_cons front rest hx, List.filter_append]
  rfl

theorem tokens_cons (rest : List α) {x : α} (hx : separates x) :
    tokens separates (x :: rest) = tokens separates rest :=
  tokens_append_cons [] rest hx

/-- A text without separators is its only token. -/
theorem tokens_of_forall {text : List α} (hne : text ≠ []) (h : ∀ x ∈ text, separates x = false) :
    tokens separates text = [text] := by
  rw [tokens, List.splitOnP_eq_singleton h, List.filter_cons_of_pos (by simpa using hne)]
  rfl

/-- Separators at the end make no difference. -/
theorem tokens_append_of_forall (text : List α) {trail : List α}
    (h : ∀ x ∈ trail, separates x) :
    tokens separates (text ++ trail) = tokens separates text := by
  induction trail generalizing text with
  | nil => rw [List.append_nil]
  | cons x trail ih =>
    rw [tokens_append_cons text trail (h x List.mem_cons_self)]
    have htrail := ih [] fun y hy => h y (List.mem_cons_of_mem _ hy)
    rw [List.nil_append] at htrail
    rw [htrail, tokens_nil, List.append_nil]

/-- Pieces with a separator between each two of them are the tokens. -/
theorem tokens_intercalate {x : α} (hx : separates x)
    {pieces : List (List α)}
    (h : ∀ piece ∈ pieces, piece ≠ [] ∧ ∀ y ∈ piece, separates y = false) :
    tokens separates ([x].intercalate pieces) = pieces := by
  induction pieces with
  | nil => rfl
  | cons piece rest ih =>
    obtain ⟨⟨hne, hpiece⟩, hrest⟩ := List.forall_mem_cons.1 h
    cases rest with
    | nil => rw [List.intercalate_singleton, tokens_of_forall hne hpiece]
    | cons next rest =>
      rw [List.intercalate_cons_cons, List.append_assoc, List.singleton_append,
        tokens_append_cons _ _ hx, tokens_of_forall hne hpiece, ih hrest, List.singleton_append]

theorem mem_intercalate {x y : α} {pieces : List (List α)}
    (h : y ∈ [x].intercalate pieces) : y = x ∨ ∃ piece ∈ pieces, y ∈ piece := by
  induction pieces with
  | nil => cases h
  | cons piece rest ih =>
    cases rest with
    | nil => exact .inr ⟨piece, List.mem_cons_self, by rwa [List.intercalate_singleton] at h⟩
    | cons next rest =>
      rw [List.intercalate_cons_cons, List.append_assoc, List.singleton_append, List.mem_append,
        List.mem_cons] at h
      rcases h with h | h | h
      · exact .inr ⟨piece, List.mem_cons_self, h⟩
      · exact .inl h
      · exact (ih h).imp_right fun ⟨other, hmem, hother⟩ =>
          ⟨other, List.mem_cons_of_mem _ hmem, hother⟩

end Pieces

/-! ## Trimming -/

section Ends
variable {α : Type} {p : α → Bool}

theorem takeWhile_append_of_forall (front : List α) {trail : List α}
    (h : ∀ x ∈ trail, p x = false) : (front ++ trail).takeWhile p = front.takeWhile p := by
  have hstop : trail.takeWhile p = [] :=
    List.takeWhile_eq_nil_iff.2 fun _ => by simpa using h _ (List.getElem_mem _)
  rw [List.takeWhile_append, hstop, List.append_nil]
  split
  case isTrue hwhole => exact ((List.takeWhile_sublist p).eq_of_length hwhole).symm
  case isFalse => rfl

theorem dropWhile_append_of_forall (front : List α) {trail : List α}
    (h : ∀ x ∈ trail, p x = false) : (front ++ trail).dropWhile p = front.dropWhile p ++ trail := by
  have hstay : trail.dropWhile p = trail :=
    List.dropWhile_eq_self_iff.2 fun _ => by simpa using h _ (List.getElem_mem _)
  rw [List.dropWhile_append, hstay]
  split
  case isTrue hnone => rw [List.isEmpty_iff.1 hnone, List.nil_append]
  case isFalse => rfl

end Ends

/-- What trimming takes off the end is blank. -/
theorem exists_trail (text : List Char) :
    ∃ trail, text.dropWhile isBlank = trim text ++ trail ∧ ∀ c ∈ trail, isBlank c := by
  refine ⟨((text.dropWhile isBlank).reverse.takeWhile isBlank).reverse, ?_, fun c hc => ?_⟩
  · rw [trim, ← List.reverse_append, List.takeWhile_append_dropWhile, List.reverse_reverse]
  · exact List.all_eq_true.1 List.all_takeWhile c (List.mem_reverse.1 hc)

/-- A trimmed text begins with the first character that is not blank. -/
theorem head?_trim (text : List Char) : (trim text).head? = text.find? fun c => !isBlank c := by
  obtain ⟨trail, htrail, hblank⟩ := exists_trail text
  have hhead := (List.find?_not_eq_head?_dropWhile isBlank text).symm
  rw [htrail] at hhead
  cases htrim : trim text with
  | cons c rest => rw [← hhead, htrim, List.cons_append, List.head?_cons, List.head?_cons]
  | nil =>
    rw [htrim, List.nil_append] at hhead
    cases trail with
    | nil => exact hhead
    | cons c trail =>
      have hc := List.find?_some hhead.symm
      rw [hblank c List.mem_cons_self] at hc
      cases hc

end Text

/-! ## Bytes at newlines -/

namespace Utf8

theorem encode_eq_flatMap (text : String) :
    encode text = text.toList.flatMap String.utf8EncodeChar := by
  obtain ⟨characters, rfl⟩ := text.exists_eq_ofList
  simp [encode, List.utf8Encode]

theorem newline_ne {n : Nat} (h : 0x80 ≤ n ∧ n < 0x100) : (0x0A : UInt8) ≠ UInt8.ofNat n := by
  intro heq
  have hnat : 0x0A = n := by
    have hvalue := congrArg UInt8.toNat heq
    rwa [UInt8.toNat_ofNat_of_lt' h.2] at hvalue
  omega

/-- The byte of a newline is in the bytes of no other character. -/
theorem newline_notMem_utf8EncodeChar {c : Char} (h : c ≠ '\n') :
    (0x0A : UInt8) ∉ String.utf8EncodeChar c := by
  unfold String.utf8EncodeChar
  dsimp only
  split
  case isTrue hsmall =>
    rw [List.mem_singleton]
    intro heq
    have hvalue := congrArg UInt8.toNat heq
    rw [UInt8.toNat_ofNat_of_lt' (show c.val.toNat < 2 ^ 8 by omega)] at hvalue
    exact h (Char.ext (UInt32.toNat.inj hvalue.symm))
  -- all other bytes are 0x80 or above
  case isFalse =>
    split
    case isTrue =>
      simp only [List.mem_cons, List.not_mem_nil, or_false, not_or]
      exact ⟨newline_ne (by omega), newline_ne (by omega)⟩
    case isFalse =>
      split
      case isTrue =>
        simp only [List.mem_cons, List.not_mem_nil, or_false, not_or]
        exact ⟨newline_ne (by omega), newline_ne (by omega), newline_ne (by omega)⟩
      case isFalse =>
        simp only [List.mem_cons, List.not_mem_nil, or_false, not_or]
        exact ⟨newline_ne (by omega), newline_ne (by omega), newline_ne (by omega),
          newline_ne (by omega)⟩

theorem splitOnP_flatMap (characters : List Char) :
    (characters.flatMap String.utf8EncodeChar).splitOnP (· == 0x0A) =
      (characters.splitOnP (· == '\n')).map fun line => line.flatMap String.utf8EncodeChar := by
  induction characters with
  | nil => rfl
  | cons c rest ih =>
    rw [List.flatMap_cons, List.splitOnP_cons_eq_if_modifyHead]
    by_cases hc : c = '\n'
    · have hbyte : String.utf8EncodeChar c = [0x0A] := hc ▸ rfl
      rw [hbyte, List.singleton_append, List.splitOnP_cons_eq_if_modifyHead,
        if_pos (beq_self_eq_true _), ih,
        if_pos (beq_iff_eq.2 hc), List.map_cons, List.flatMap_nil]
    · have hbytes : ∀ byte ∈ String.utf8EncodeChar c, (byte == 0x0A) = false := by
        rintro byte hmem
        exact beq_false_of_ne fun heq => newline_notMem_utf8EncodeChar hc (heq ▸ hmem)
      rw [Text.splitOnP_append_of_forall hbytes, ih, if_neg (by simpa using hc)]
      cases rest.splitOnP (· == '\n') with
      | nil => rfl
      | cons line lines => rfl

/-- **The bytes of a text are cut at newlines** where the text is. -/
theorem splitOnP_encode (text : String) :
    (encode text).splitOnP (· == 0x0A) =
      (text.toList.splitOnP (· == '\n')).map fun line => encode (String.ofList line) := by
  simp only [encode_eq_flatMap, splitOnP_flatMap, String.toList_ofList]

end Utf8

end FpgaBitstream
