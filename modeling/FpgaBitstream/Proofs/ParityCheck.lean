import Mathlib

/-!
# Codes given by parity checks

Over the integers modulo two, exclusive or is addition, and a code is given by the column of checks
in which each place of a word takes part: the columns of the set places of a codeword sum to zero.
When all columns have an odd number of ones, a codeword has an even number of ones; when they are
distinct as well, it has not just two.  So a codeword other than zero has at least four
(`ParityCheck.four_le_hammingNorm`).

`ParityCheck.Systematic` is the form in which codes are written into frames: each check bit has a
place of its own, and holds the sum of the syndromes of the places that hold none.  Two words of
such a code differ in at least four places (`ParityCheck.Systematic.four_le_hammingDist`).
-/

namespace FpgaBitstream

/-- A bit as a number modulo two. -/
def parity (bit : Bool) : ZMod 2 := if bit then 1 else 0

@[simp] theorem parity_false : parity false = 0 := rfl

@[simp] theorem parity_true : parity true = 1 := rfl

theorem parity_xor (a b : Bool) : parity (a ^^ b) = parity a + parity b := by
  cases a <;> cases b <;> decide

theorem parity_injective : Function.Injective parity := by
  intro a b h
  cases a <;> cases b <;> first | rfl | exact absurd h (by decide)

namespace ParityCheck

variable {ι κ : Type}

theorem eq_one_of_ne_zero {z : ZMod 2} (h : z ≠ 0) : z = 1 := by
  revert h
  revert z
  decide

section Distance
variable [Fintype ι]

/-- A sum with the entries of a word is a sum over its ones. -/
theorem sum_mul_eq (x : ι → ZMod 2) (value : ι → ZMod 2) :
    ∑ p, x p * value p = ∑ p with x p ≠ 0, value p := by
  rw [Finset.sum_filter]
  refine Finset.sum_congr rfl fun p _ => ?_
  by_cases hp : x p = 0
  · simp [hp]
  · simp [eq_one_of_ne_zero hp]

variable [Fintype κ] [DecidableEq ι]

/-- **Distinct columns of odd weight** make every codeword but zero have four ones. -/
theorem four_le_hammingNorm {column : ι → κ → ZMod 2} (hinjective : Function.Injective column)
    (hodd : ∀ p, ∑ k, column p k = 1) {x : ι → ZMod 2} (hx : ∀ k, ∑ p, x p * column p k = 0)
    (hne : x ≠ 0) : 4 ≤ hammingNorm x := by
  have hsupport : ∀ k, ∑ p with x p ≠ 0, column p k = 0 := fun k => by rw [← sum_mul_eq, hx k]
  have heven : Even (hammingNorm x) := by
    rw [← ZMod.natCast_eq_zero_iff_even]
    calc (hammingNorm x : ZMod 2)
        = ∑ p with x p ≠ 0, ∑ k, column p k := by simp [hodd, hammingNorm]
      _ = ∑ k, ∑ p with x p ≠ 0, column p k := Finset.sum_comm
      _ = 0 := Finset.sum_eq_zero fun k _ => hsupport k
  have hpositive : hammingNorm x ≠ 0 := hammingNorm_ne_zero_iff.2 hne
  have htwo : hammingNorm x ≠ 2 := by
    intro htwo
    obtain ⟨p, q, hpq, hones⟩ := Finset.card_eq_two.1 htwo
    refine hpq (hinjective (funext fun k => ?_))
    have hsum := hsupport k
    rw [hones, Finset.sum_pair hpq] at hsum
    exact CharTwo.add_eq_zero.1 hsum
  obtain ⟨half, hhalf⟩ := heven
  omega

end Distance

/-! ## Check bits kept in the word -/

section Systematic
variable [Fintype κ] [DecidableEq ι]

/-- The places of the check bits. -/
def checkPlaces (place : κ → ι) : Finset ι := Finset.univ.image place

@[simp] theorem mem_checkPlaces {place : κ → ι} {p : ι} :
    p ∈ checkPlaces place ↔ ∃ k, place k = p := by
  simp [checkPlaces]

/-- The checks in which a place takes part: a check bit in its own, another bit in those of its
syndrome. -/
def column (place : κ → ι) (syndrome : ι → κ → ZMod 2) (p : ι) (k : κ) : ZMod 2 :=
  if p ∈ checkPlaces place then (if p = place k then 1 else 0) else syndrome p k

variable {place : κ → ι} {syndrome : ι → κ → ZMod 2}

theorem column_of_notMem {p : ι} (hp : p ∉ checkPlaces place) :
    column place syndrome p = syndrome p := by
  funext k
  rw [column, if_neg hp]

/-- A word whose check bits are the sums of the syndromes of its other bits. -/
def IsCodeword [Fintype ι] (place : κ → ι) (syndrome : ι → κ → ZMod 2) (x : ι → ZMod 2) : Prop :=
  ∀ k, x (place k) = ∑ p, if p ∈ checkPlaces place then 0 else x p * syndrome p k

/-- The columns of the ones of a codeword sum to zero. -/
theorem IsCodeword.sum_eq_zero [Fintype ι] {x : ι → ZMod 2} (hx : IsCodeword place syndrome x)
    (k : κ) :
    ∑ p, x p * column place syndrome p k = 0 := by
  have hsplit : ∀ p, x p * column place syndrome p k =
      (if p = place k then x p else 0) +
        if p ∈ checkPlaces place then 0 else x p * syndrome p k := by
    intro p
    by_cases hp : p ∈ checkPlaces place
    · rw [column, if_pos hp, if_pos hp, mul_ite, mul_one, mul_zero, add_zero]
    · have hne : p ≠ place k := fun heq => hp (mem_checkPlaces.2 ⟨k, heq.symm⟩)
      rw [column, if_neg hp, if_neg hp, if_neg hne, zero_add]
  have hcheck : ∑ p, (if p = place k then x p else 0) = x (place k) := by simp
  rw [Finset.sum_congr rfl fun p _ => hsplit p, Finset.sum_add_distrib, hcheck, ← hx k]
  exact CharTwo.add_self_eq_zero _

variable [DecidableEq κ]

/-- Places for the check bits, and for each other place a syndrome of odd weight that tells it apart
from the other places and from every single check bit. -/
structure Systematic (place : κ → ι) (syndrome : ι → κ → ZMod 2) : Prop where
  place_injective : Function.Injective place
  odd : ∀ p ∉ checkPlaces place, ∑ k, syndrome p k = 1
  separates : ∀ p ∉ checkPlaces place, ∀ q ∉ checkPlaces place, syndrome p = syndrome q → p = q
  ne_single : ∀ p ∉ checkPlaces place, ∀ k, syndrome p ≠ fun j => if j = k then 1 else 0

theorem Systematic.column_place (h : Systematic place syndrome) (k : κ) :
    column place syndrome (place k) = fun j => if j = k then 1 else 0 := by
  funext j
  rw [column, if_pos (mem_checkPlaces.2 ⟨k, rfl⟩)]
  refine if_congr ?_ rfl rfl
  rw [h.place_injective.eq_iff, eq_comm]

theorem Systematic.sum_column (h : Systematic place syndrome) (p : ι) :
    ∑ k, column place syndrome p k = 1 := by
  by_cases hp : p ∈ checkPlaces place
  · obtain ⟨k, rfl⟩ := mem_checkPlaces.1 hp
    simp [h.column_place]
  · rw [column_of_notMem hp]
    exact h.odd p hp

theorem Systematic.column_injective (h : Systematic place syndrome) :
    Function.Injective (column place syndrome) := by
  -- a place without a check bit has another column than a place with one
  have hne : ∀ p ∉ checkPlaces place, ∀ k,
      column place syndrome p ≠ column place syndrome (place k) := by
    intro p hp k
    rw [column_of_notMem hp, h.column_place]
    exact h.ne_single p hp k
  intro p q heq
  by_cases hp : p ∈ checkPlaces place <;> by_cases hq : q ∈ checkPlaces place
  · obtain ⟨i, rfl⟩ := mem_checkPlaces.1 hp
    obtain ⟨j, rfl⟩ := mem_checkPlaces.1 hq
    rw [h.column_place, h.column_place] at heq
    by_cases hij : i = j
    · rw [hij]
    · have hone : (1 : ZMod 2) = 0 := by simpa [hij] using congrFun heq i
      exact absurd hone one_ne_zero
  · obtain ⟨i, rfl⟩ := mem_checkPlaces.1 hp
    exact absurd heq.symm (hne q hq i)
  · obtain ⟨j, rfl⟩ := mem_checkPlaces.1 hq
    exact absurd heq (hne p hp j)
  · rw [column_of_notMem hp, column_of_notMem hq] at heq
    exact h.separates p hp q hq heq

/-- **Two words of a systematic code** differ in at least four places. -/
theorem Systematic.four_le_hammingDist [Fintype ι] (h : Systematic place syndrome)
    {x y : ι → ZMod 2} (hx : IsCodeword place syndrome x) (hy : IsCodeword place syndrome y)
    (hne : x ≠ y) :
    4 ≤ hammingDist x y := by
  have hsum : ∀ k, ∑ p, (-x + y) p * column place syndrome p k = 0 := by
    intro k
    have hsplit : ∀ p, (-x + y) p * column place syndrome p k =
        -(x p * column place syndrome p k) + y p * column place syndrome p k := by
      intro p
      rw [Pi.add_apply, Pi.neg_apply, add_mul, neg_mul]
    rw [Finset.sum_congr rfl fun p _ => hsplit p, Finset.sum_add_distrib, Finset.sum_neg_distrib,
      hx.sum_eq_zero, hy.sum_eq_zero, neg_zero, add_zero]
  have hnonzero : -x + y ≠ 0 := fun hzero => hne (neg_add_eq_zero.1 hzero)
  rw [hammingDist_eq_hammingNorm]
  exact four_le_hammingNorm h.column_injective h.sum_column hsum hnonzero

end Systematic
end ParityCheck
end FpgaBitstream
