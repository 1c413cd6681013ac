import FpgaBitstream.Proofs.EccArithmetic

/-!
# Storing the code of a frame

The code of a frame is computed over the words that it is stored in.  Both schemes mask out exactly
the bits that they store (`Stored`), so that the code depends on the other bits only, and so does
the frame that holds it (`Stored.withCode_congr`).  It follows that `update` keeps the other bits
(`bitAt_update`), that frames which agree in them become the same (`update_congr`), and that a
second update changes nothing (`update_update`).
-/

namespace FpgaBitstream.Ecc

/-! ## Codes kept in a frame -/

section Stored
variable {keep : Nat → Word} {code : List Word → Nat → Word}

/-- The frame with nothing but the bits that are kept. -/
def cleared (keep : Nat → Word) (frame : List Word) : List Word :=
  frame.mapIdx fun index word => word &&& keep index

/-- The frame with a code in place of the bits that are not kept. -/
def withCode (keep code : Nat → Word) (frame : List Word) : List Word :=
  frame.mapIdx fun index word => (word &&& keep index) ||| code index

/-- A code that stands in the bits that are not kept, and is computed from those that are. -/
structure Stored (keep : Nat → Word) (code : List Word → Nat → Word) : Prop where
  disjoint : ∀ frame index, code frame index &&& keep index = 0
  code_cleared : ∀ frame, code (cleared keep frame) = code frame

theorem and_keep_and_keep (word mask : Word) : word &&& mask &&& mask = word &&& mask := by
  rw [BitVec.and_assoc, BitVec.and_self]

theorem withCode_cleared (keep code : Nat → Word) (frame : List Word) :
    withCode keep code (cleared keep frame) = withCode keep code frame := by
  simp only [withCode, cleared, List.mapIdx_mapIdx, Function.comp_def, and_keep_and_keep]

/-- **The code depends on the kept bits only**, and so does the frame that holds it. -/
theorem Stored.withCode_congr (h : Stored keep code) {a b : List Word}
    (hkept : cleared keep a = cleared keep b) :
    withCode keep (code a) a = withCode keep (code b) b := by
  rw [← withCode_cleared keep (code a) a, ← withCode_cleared keep (code b) b, ← h.code_cleared a,
    ← h.code_cleared b, hkept]

theorem Stored.cleared_withCode (h : Stored keep code) (a frame : List Word) :
    cleared keep (withCode keep (code a) frame) = cleared keep frame := by
  have hword (index : Nat) (word : Word) :
      ((word &&& keep index) ||| code a index) &&& keep index = word &&& keep index := by
    rw [BitVec.and_or_distrib_right, h.disjoint, and_keep_and_keep]
    exact BitVec.or_zero
  simp only [withCode, cleared, List.mapIdx_mapIdx, Function.comp_def, hword]

end Stored

/-- Steps that change nothing. -/
theorem foldl_eq_self {α β : Type} {step : β → α → β} {start : β} {elements : List α}
    (h : ∀ x ∈ elements, step start x = start) : elements.foldl step start = start := by
  induction elements with
  | nil => rfl
  | cons x rest ih =>
    rw [List.foldl_cons, h x List.mem_cons_self]
    exact ih fun y hy => h y (List.mem_cons_of_mem _ hy)

/-- A sum over the words of a frame, when it looks at the kept bits only. -/
theorem foldl_zipIdx_cleared {β : Type} {keep : Nat → Word} {step : β → Word × Nat → β}
    (h : ∀ sum word index, step sum (word &&& keep index, index) = step sum (word, index))
    (start : β) (frame : List Word) :
    (cleared keep frame).zipIdx.foldl step start = frame.zipIdx.foldl step start := by
  have hentries : (cleared keep frame).zipIdx =
      frame.zipIdx.map fun entry => (entry.1 &&& keep entry.2, entry.2) := by
    refine List.ext_getElem (by simp [cleared]) fun i _ _ => ?_
    simp [cleared]
  rw [hentries, List.foldl_map]
  exact List.foldl_ext _ _ _ fun sum entry _ => h sum entry.1 entry.2

/-- The syndromes of a word without bits add nothing. -/
theorem sumBits_zero {w : Nat} (syndrome : Nat → BitVec w) (sum : BitVec w) :
    sumBits syndrome 0 sum = sum :=
  foldl_eq_self fun bit _ => by
    have hclear : (0 : Word).getLsbD bit = false := BitVec.getLsbD_zero
    rw [hclear, if_neg Bool.false_ne_true]

/-! ## The 7-series -/

namespace Series7

/-- The bits of a word that are no part of the code. -/
def keep (index : Nat) : Word := if index = eccWord then ~~~eccMask else BitVec.allOnes 32

/-- The bits of the code of a frame in each word. -/
def code (frame : List Word) (index : Nat) : Word :=
  if index = eccWord then ofFrame frame &&& eccMask else 0

theorem stored : Stored keep code where
  disjoint frame index := by
    unfold code keep
    split
    · rw [BitVec.and_assoc, BitVec.and_not_self]
      exact BitVec.and_zero
    · exact BitVec.zero_and
  code_cleared frame := by
    have hword (ecc word : Word) (index : Nat) :
        addWord index (word &&& keep index) ecc = addWord index word ecc := by
      unfold addWord keep
      split
      · rw [and_keep_and_keep]
      · rw [BitVec.and_allOnes]
    have hframe : ofFrame (cleared keep frame) = ofFrame frame :=
      foldl_zipIdx_cleared (fun ecc word index => hword ecc word index) 0 frame
    funext index
    rw [code, code, hframe]

theorem update_eq {frame : List Word} (h : eccWord < frame.length) :
    update frame = withCode keep (code frame) frame := by
  have hupdate : update frame =
      frame.set eccWord ((frame[eccWord] &&& ~~~eccMask) ||| (ofFrame frame &&& eccMask)) := by
    rw [update, List.getElem?_eq_getElem h]
  rw [hupdate]
  refine List.ext_getElem (by simp [withCode]) fun index hindex _ => ?_
  rw [List.getElem_set]
  simp only [withCode, List.getElem_mapIdx, keep, code]
  by_cases heq : index = eccWord
  · subst heq
    simp
  · rw [if_neg (Ne.symm heq), if_neg heq, if_neg heq, BitVec.and_allOnes]
    exact BitVec.or_zero.symm

theorem ofFrame_replicate_zero (n : Nat) : ofFrame (List.replicate n 0) = 0 := by
  refine foldl_eq_self fun entry hentry => ?_
  have hzero : entry.1 = 0 := List.eq_of_mem_replicate (List.fst_mem_of_mem_zipIdx hentry)
  show addWord entry.2 entry.1 0 = 0
  have hmasked : (if entry.2 = eccWord then (0 : Word) &&& ~~~eccMask else 0) = 0 := by
    split
    · exact BitVec.zero_and
    · rfl
  rw [hzero, addWord, hmasked, sumBits_zero]
  exact ite_self _

theorem code_replicate_zero (n index : Nat) : code (List.replicate n 0) index = 0 := by
  unfold code
  split
  · rw [ofFrame_replicate_zero]
    exact BitVec.zero_and
  · rfl

theorem getLsbD_keep_iff {index bit : Nat} (hbit : bit < 32) :
    (keep index).getLsbD bit = true ↔ ¬ (index = eccWord ∧ bit < 13) := by
  have hmask : ∀ bit < 32, (~~~eccMask).getLsbD bit = decide (13 ≤ bit) := by decide
  unfold keep
  split
  · rw [hmask bit hbit, decide_eq_true_iff]
    omega
  · rw [BitVec.getLsbD_allOnes, decide_eq_true_iff]
    omega

end Series7

/-! ## The UltraScale families -/

namespace UltraScale

/-- The bits of a word that are no part of the code. -/
def keep (e index : Nat) : Word :=
  if index = e then 0xFFFF0000 else if index = e + 1 then 0 else BitVec.allOnes 32

/-- The bits of the code of a frame in each word. -/
def code (e : Nat) (frame : List Word) (index : Nat) : Word :=
  if index = e then (ofFrame e frame >>> 32).setWidth 32
  else if index = e + 1 then (ofFrame e frame).setWidth 32
  else 0

theorem stored (e : Nat) : Stored (keep e) (code e) where
  disjoint frame index := by
    unfold code keep
    split
    · -- the code has 48 bits, so that 16 are left behind the low 32
      refine BitVec.eq_of_getLsbD_eq fun i hi => Eq.trans ?_ BitVec.getLsbD_zero.symm
      rw [BitVec.getLsbD_and, BitVec.getLsbD_setWidth, BitVec.getLsbD_ushiftRight,
        getLsbD_highHalf i hi]
      by_cases hhigh : 16 ≤ i
      · rw [BitVec.getLsbD_of_ge _ (32 + i) (by omega), Bool.and_false, Bool.false_and]
      · rw [decide_eq_false hhigh, Bool.and_false]
    · split
      · exact BitVec.and_zero
      · exact BitVec.zero_and
  code_cleared frame := by
    have hword (index : Nat) (word : Word) :
        maskWord e index (word &&& keep e index) = maskWord e index word := by
      unfold maskWord keep
      split
      · exact and_keep_and_keep _ _
      · split
        · rfl
        · exact BitVec.and_allOnes
    have hframe : ofFrame e (cleared (keep e) frame) = ofFrame e frame := by
      have hlength : (cleared (keep e) frame).length = frame.length := List.length_mapIdx
      rw [ofFrame, ofFrame, hlength]
      refine foldl_zipIdx_cleared (fun sum word index => ?_) 0 frame
      simp only [hword]
    funext index
    rw [code, code, hframe]

theorem update_eq {e : Nat} {frame : List Word} (h : e + 1 < frame.length) :
    update e frame = withCode (keep e) (code e frame) frame := by
  have hfirst : e < frame.length := Nat.lt_of_succ_lt h
  have hupdate : update e frame =
      (frame.set e ((frame[e] &&& 0xFFFF0000) ||| (ofFrame e frame >>> 32).setWidth 32)).set (e + 1)
        ((ofFrame e frame).setWidth 32) := by
    rw [update, List.getElem?_eq_getElem hfirst, List.getElem?_eq_getElem h]
  rw [hupdate]
  refine List.ext_getElem (by simp [withCode]) fun index hindex _ => ?_
  rw [List.getElem_set, List.getElem_set]
  simp only [withCode, List.getElem_mapIdx, keep, code]
  by_cases heq : index = e
  · subst heq
    simp
  · by_cases hnext : index = e + 1
    · subst hnext
      simp
    · rw [if_neg (Ne.symm hnext), if_neg (Ne.symm heq), if_neg heq, if_neg hnext, if_neg heq,
        if_neg hnext, BitVec.and_allOnes]
      exact BitVec.or_zero.symm

theorem ofFrame_replicate_zero (e n : Nat) : ofFrame e (List.replicate n 0) = 0 := by
  refine foldl_eq_self fun entry hentry => ?_
  have hzero : entry.1 = 0 := List.eq_of_mem_replicate (List.fst_mem_of_mem_zipIdx hentry)
  have hmasked : maskWord e entry.2 0 = 0 := by
    unfold maskWord
    split
    · exact BitVec.zero_and
    · exact ite_self _
  show sumBits _ (maskWord e entry.2 entry.1) 0 = 0
  rw [hzero, hmasked, sumBits_zero]

theorem code_replicate_zero (e n index : Nat) : code e (List.replicate n 0) index = 0 := by
  unfold code
  rw [ofFrame_replicate_zero]
  split
  · rfl
  · exact ite_self _

theorem getLsbD_keep_iff {e index bit : Nat} (hbit : bit < 32) :
    (keep e index).getLsbD bit = true ↔ ¬ (index = e ∧ bit < 16 ∨ index = e + 1) := by
  unfold keep
  split
  · rw [getLsbD_highHalf bit hbit, decide_eq_true_iff]
    omega
  · split
    · have hclear : (0 : Word).getLsbD bit = false := BitVec.getLsbD_zero
      rw [hclear]
      exact iff_of_false Bool.false_ne_true fun hnot => hnot (.inr ‹_›)
    · rw [BitVec.getLsbD_allOnes, decide_eq_true_iff]
      omega

end UltraScale

/-! ## All families -/

/-- Whether a frame of `n` words is long enough to hold a code. -/
def HoldsCode : Family → Nat → Prop
  | .series7, n => Series7.eccWord < n
  | .ultraScale, n => UltraScale.eccWord + 1 < n
  | .ultraScalePlus, n => UltraScale.plusEccWord + 1 < n
  | .spartan6, _ => False

instance : ∀ f n, Decidable (HoldsCode f n)
  | .series7, n => inferInstanceAs (Decidable (Series7.eccWord < n))
  | .ultraScale, n => inferInstanceAs (Decidable (UltraScale.eccWord + 1 < n))
  | .ultraScalePlus, n => inferInstanceAs (Decidable (UltraScale.plusEccWord + 1 < n))
  | .spartan6, _ => inferInstanceAs (Decidable False)

/-- Whether the code is in a bit of a word: in the low 13 bits of one word, or in the low 16 bits of
one word and the whole of the next. -/
def IsCodeBit : Family → Nat → Nat → Prop
  | .series7, index, bit => index = Series7.eccWord ∧ bit < 13
  | .ultraScale, index, bit =>
    index = UltraScale.eccWord ∧ bit < 16 ∨ index = UltraScale.eccWord + 1
  | .ultraScalePlus, index, bit =>
    index = UltraScale.plusEccWord ∧ bit < 16 ∨ index = UltraScale.plusEccWord + 1
  | .spartan6, _, _ => False

instance : ∀ f index bit, Decidable (IsCodeBit f index bit)
  | .series7, index, bit => inferInstanceAs (Decidable (index = Series7.eccWord ∧ bit < 13))
  | .ultraScale, index, bit => inferInstanceAs (Decidable
      (index = UltraScale.eccWord ∧ bit < 16 ∨ index = UltraScale.eccWord + 1))
  | .ultraScalePlus, index, bit => inferInstanceAs (Decidable
      (index = UltraScale.plusEccWord ∧ bit < 16 ∨ index = UltraScale.plusEccWord + 1))
  | .spartan6, _, _ => inferInstanceAs (Decidable False)

/-- The bits of a word that are no part of the code. -/
def keep : Family → Nat → Word
  | .series7 => Series7.keep
  | .ultraScale => UltraScale.keep UltraScale.eccWord
  | .ultraScalePlus => UltraScale.keep UltraScale.plusEccWord
  | .spartan6 => fun _ => BitVec.allOnes 32

/-- The bits of the code of a frame in each word. -/
def code : Family → List Word → Nat → Word
  | .series7 => Series7.code
  | .ultraScale => UltraScale.code UltraScale.eccWord
  | .ultraScalePlus => UltraScale.code UltraScale.plusEccWord
  | .spartan6 => fun _ _ => 0

variable {f : Family}

theorem stored (f : Family) : Stored (keep f) (code f) := by
  cases f with
  | series7 => exact Series7.stored
  | ultraScale => exact UltraScale.stored _
  | ultraScalePlus => exact UltraScale.stored _
  | spartan6 => exact ⟨fun _ _ => BitVec.zero_and, fun _ => rfl⟩

theorem update_of_holdsCode {frame : List Word} (h : HoldsCode f frame.length) :
    update f frame = withCode (keep f) (code f frame) frame := by
  cases f with
  | series7 => exact Series7.update_eq h
  | ultraScale => exact UltraScale.update_eq h
  | ultraScalePlus => exact UltraScale.update_eq h
  | spartan6 => exact h.elim

/-- A frame too short to hold the code is left alone. -/
theorem update_of_not_holdsCode {frame : List Word} (h : ¬ HoldsCode f frame.length) :
    update f frame = frame := by
  have hshort {e : Nat} (he : ¬ e + 1 < frame.length) : UltraScale.update e frame = frame := by
    rw [UltraScale.update, List.getElem?_eq_none (Nat.not_lt.1 he)]
    cases frame[e]? <;> rfl
  cases f with
  | series7 =>
    show Series7.update frame = frame
    rw [Series7.update, List.getElem?_eq_none (Nat.not_lt.1 h)]
  | ultraScale => exact hshort h
  | ultraScalePlus => exact hshort h
  | spartan6 => rfl

theorem length_update (f : Family) (frame : List Word) :
    (update f frame).length = frame.length := by
  by_cases h : HoldsCode f frame.length
  · rw [update_of_holdsCode h, withCode, List.length_mapIdx]
  · rw [update_of_not_holdsCode h]

/-- The bits that are kept are those without code. -/
theorem getLsbD_keep_iff {index bit : Nat} (hbit : bit < 32) :
    (keep f index).getLsbD bit = true ↔ ¬ IsCodeBit f index bit := by
  cases f with
  | series7 => exact Series7.getLsbD_keep_iff hbit
  | ultraScale => exact UltraScale.getLsbD_keep_iff hbit
  | ultraScalePlus => exact UltraScale.getLsbD_keep_iff hbit
  | spartan6 =>
    show (BitVec.allOnes 32).getLsbD bit = true ↔ ¬ False
    rw [BitVec.getLsbD_allOnes, decide_eq_true hbit]
    exact iff_of_true rfl not_false

/-- A bit of a word of a frame. -/
def bitAt (frame : List Word) (index bit : Nat) : Bool := (frame.getD index 0).getLsbD bit

theorem bitAt_withCode {frame : List Word} {code : Nat → Word}
    (hcode : ∀ index, code index &&& keep f index = 0) {index bit : Nat}
    (h : ¬ IsCodeBit f index bit) :
    bitAt (withCode (keep f) code frame) index bit = bitAt frame index bit := by
  unfold bitAt
  by_cases hbit : bit < 32
  · by_cases hindex : index < frame.length
    · have hkeep := (getLsbD_keep_iff (f := f) hbit).2 h
      have hclear : (code index).getLsbD bit = false := by
        have hand := congrArg (·.getLsbD bit) (hcode index)
        simpa [BitVec.getLsbD_and, hkeep] using hand
      have hlong : index < (withCode (keep f) code frame).length := by
        rwa [withCode, List.length_mapIdx]
      rw [List.getD_eq_getElem _ _ hlong, List.getD_eq_getElem _ _ hindex]
      simp only [withCode, List.getElem_mapIdx]
      rw [BitVec.getLsbD_or, BitVec.getLsbD_and, hkeep, hclear, Bool.and_true, Bool.or_false]
    · have hlong : ¬ index < (withCode (keep f) code frame).length := by
        rwa [withCode, List.length_mapIdx]
      rw [List.getD_eq_default _ _ (Nat.not_lt.1 hlong),
        List.getD_eq_default _ _ (Nat.not_lt.1 hindex)]
  · rw [BitVec.getLsbD_of_ge _ _ (Nat.not_lt.1 hbit), BitVec.getLsbD_of_ge _ _ (Nat.not_lt.1 hbit)]

/-- Frames that agree outside their codes are kept alike. -/
theorem cleared_eq_of_agree {a b : List Word} (hlength : a.length = b.length)
    (h : ∀ index bit, ¬ IsCodeBit f index bit → bitAt a index bit = bitAt b index bit) :
    cleared (keep f) a = cleared (keep f) b := by
  refine List.ext_getElem (by simp [cleared, hlength]) fun index ha hb => ?_
  rw [cleared, List.length_mapIdx] at ha hb
  simp only [cleared, List.getElem_mapIdx]
  refine BitVec.eq_of_getLsbD_eq fun bit hbit => ?_
  rw [BitVec.getLsbD_and, BitVec.getLsbD_and]
  by_cases hcode : IsCodeBit f index bit
  · have hkeep : (keep f index).getLsbD bit = false := by
      rw [← Bool.not_eq_true, getLsbD_keep_iff hbit]
      exact fun hnot => hnot hcode
    rw [hkeep, Bool.and_false, Bool.and_false]
  · have hsame := h index bit hcode
    rw [bitAt, bitAt, List.getD_eq_getElem _ _ ha, List.getD_eq_getElem _ _ hb] at hsame
    rw [hsame]

/-- **Nothing but the code is changed.** -/
theorem bitAt_update {frame : List Word} {index bit : Nat}
    (h : ¬ (HoldsCode f frame.length ∧ IsCodeBit f index bit)) :
    bitAt (update f frame) index bit = bitAt frame index bit := by
  by_cases hholds : HoldsCode f frame.length
  · rw [update_of_holdsCode hholds]
    exact bitAt_withCode (fun index => (stored f).disjoint frame index) fun hbit => h ⟨hholds, hbit⟩
  · rw [update_of_not_holdsCode hholds]

/-- **Frames with the same kept bits** get the same code, and become the same. -/
theorem update_congr {a b : List Word} (hlength : a.length = b.length)
    (hholds : HoldsCode f b.length) (hkept : cleared (keep f) a = cleared (keep f) b) :
    update f a = update f b := by
  rw [update_of_holdsCode hholds, update_of_holdsCode (hlength ▸ hholds)]
  exact (stored f).withCode_congr hkept

/-- **A second update changes nothing.** -/
theorem update_update (f : Family) (frame : List Word) :
    update f (update f frame) = update f frame := by
  by_cases hholds : HoldsCode f frame.length
  · refine update_congr (length_update f frame) hholds ?_
    rw [update_of_holdsCode hholds]
    exact (stored f).cleared_withCode frame frame
  · rw [update_of_not_holdsCode hholds, update_of_not_holdsCode hholds]

theorem code_replicate_zero (f : Family) (n index : Nat) :
    code f (List.replicate n 0) index = 0 := by
  cases f with
  | series7 => exact Series7.code_replicate_zero n index
  | ultraScale => exact UltraScale.code_replicate_zero _ n index
  | ultraScalePlus => exact UltraScale.code_replicate_zero _ n index
  | spartan6 => rfl

/-- **A frame of zeros has a code of zeros.** -/
theorem update_replicate_zero (f : Family) (n : Nat) :
    update f (List.replicate n 0) = List.replicate n 0 := by
  by_cases hholds : HoldsCode f (List.replicate n (0 : Word)).length
  · rw [update_of_holdsCode hholds]
    refine List.ext_getElem (by simp [withCode]) fun index _ _ => ?_
    simp only [withCode, List.getElem_mapIdx, List.getElem_replicate, code_replicate_zero]
    have hclear : (0 : Word) &&& keep f index = 0 := BitVec.zero_and
    rw [hclear]
    exact BitVec.or_zero
  · exact update_of_not_holdsCode hholds

/-- **Updating the code is a projection onto the frames that hold their code.** It keeps the length
of a frame and every bit outside the code, and all bits of a frame too short to hold one. A second
update changes nothing. Frames of one length that agree outside the code become the same, and a
frame of zeros stays one. The arithmetic does not fail. -/
theorem update_projection (f : Family) (frame : List Word) :
    (update f frame).length = frame.length ∧
      (∀ index bit, ¬ (HoldsCode f frame.length ∧ IsCodeBit f index bit) →
        bitAt (update f frame) index bit = bitAt frame index bit) ∧
      (¬ HoldsCode f frame.length → update f frame = frame) ∧
      update f (update f frame) = update f frame ∧
      (∀ other : List Word, other.length = frame.length → HoldsCode f frame.length →
        (∀ index bit, ¬ IsCodeBit f index bit → bitAt other index bit = bitAt frame index bit) →
        update f other = update f frame) ∧
      ((∀ word ∈ frame, word = 0) → update f frame = frame) ∧
      (AdmitsLength f frame.length → Checked.update? f frame = some (update f frame)) := by
  refine ⟨length_update f frame, fun index bit h => bitAt_update h, update_of_not_holdsCode,
    update_update f frame, ?agreeing, ?zeros, Checked.update?_eq⟩
  case agreeing =>
    intro other hlength hholds hagree
    exact update_congr hlength hholds (cleared_eq_of_agree hlength hagree)
  case zeros =>
    intro hzeros
    have hframe : frame = List.replicate frame.length 0 := List.eq_replicate_of_mem hzeros
    rw [hframe]
    exact update_replicate_zero f _

/-- An UltraScale+ frame of twice the length with one bit set. -/
def longFrame : List Word := 1 :: List.replicate 185 0

/-- The same frame with all bits of its code set. -/
def longFrameCodeSet : List Word :=
  withCode (keep .ultraScalePlus) (fun index => ~~~keep .ultraScalePlus index) longFrame

theorem update_projection_longFrame :
    longFrameCodeSet ≠ longFrame ∧
      bitAt (update .ultraScalePlus longFrame) 0 0 = bitAt longFrame 0 0 ∧
      update .ultraScalePlus longFrameCodeSet = update .ultraScalePlus longFrame ∧
      Checked.update? .ultraScalePlus longFrame = some (update .ultraScalePlus longFrame) ∧
      update .ultraScalePlus (longFrame.take 46) = longFrame.take 46 ∧
      update .ultraScalePlus (longFrame.drop 1) = longFrame.drop 1 := by
  have hagree : ∀ index bit, ¬ IsCodeBit .ultraScalePlus index bit →
      bitAt longFrameCodeSet index bit = bitAt longFrame index bit := by
    intro index bit hbit
    exact bitAt_withCode (fun index => BitVec.not_and_self (keep .ultraScalePlus index)) hbit
  obtain ⟨-, hkept, -, -, hequal, -, hchecked⟩ := update_projection .ultraScalePlus longFrame
  have hshort := (update_projection .ultraScalePlus (longFrame.take 46)).2.2.1 (by decide +kernel)
  have hzeros := (update_projection .ultraScalePlus (longFrame.drop 1)).2.2.2.2.2.1
    fun word hword => List.eq_of_mem_replicate hword
  refine ⟨by decide +kernel, hkept 0 0 (by decide +kernel), ?_, hchecked (by decide +kernel),
    hshort, hzeros⟩
  exact hequal longFrameCodeSet List.length_mapIdx (by decide +kernel) hagree

end FpgaBitstream.Ecc
