import Mathlib.Data.Nat.Bitwise
import Mathlib.Tactic.Common

/-!
# Aligned words with flag bits

A page-table entry, a stack base or a page address is a multiple of `2 ^ k`, and
what shares the word with it lives in the low `k` bits.  The lemmas here split
such a word: the high part is recovered by a mask, the flags are read through
`testBit`, and neither sees the other.
-/

namespace Illinix.Base

/-- Masking a 32-bit word with ones above bit `k` rounds it down to a multiple of
`2 ^ k`. -/
theorem land_highMask {x k : Nat} (hx : x < 2 ^ 32) (hk : k ≤ 32) :
    x &&& (2 ^ 32 - 2 ^ k) = x / 2 ^ k * 2 ^ k := by
  have hmask : 2 ^ 32 - 2 ^ k = (2 ^ (32 - k) - 1) * 2 ^ k := by
    rw [Nat.sub_mul, ← Nat.pow_add, Nat.sub_add_cancel hk, Nat.one_mul]
  rw [hmask]
  apply Nat.eq_of_testBit_eq
  intro i
  rw [Nat.testBit_and, Nat.testBit_mul_two_pow, Nat.testBit_two_pow_sub_one,
    Nat.testBit_mul_two_pow, Nat.testBit_div_two_pow]
  by_cases hik : k ≤ i
  · have hi : i - k + k = i := Nat.sub_add_cancel hik
    by_cases h32 : i < 32
    · have : i - k < 32 - k := by omega
      simp [hik, hi, this]
    · have hbit : x.testBit i = false :=
        Nat.testBit_lt_two_pow (hx.trans_le (Nat.pow_le_pow_right (by decide) (by omega)))
      simp [hbit, hi]
  · simp [hik]

/-- Or-ing flags into the free low bits of an aligned word adds them. -/
theorem lor_aligned {k a f : Nat} (ha : 2 ^ k ∣ a) (hf : f < 2 ^ k) : a ||| f = a + f := by
  obtain ⟨b, rfl⟩ := ha
  exact (Nat.two_pow_add_eq_or_of_lt hf b).symm

/-- The flags of an aligned word are read back unchanged. -/
theorem testBit_lor_aligned {k a f i : Nat} (ha : 2 ^ k ∣ a) (hi : i < k) :
    (a ||| f).testBit i = f.testBit i := by
  obtain ⟨b, rfl⟩ := ha
  rw [Nat.testBit_or, Nat.mul_comm, Nat.testBit_mul_two_pow]
  have : ¬ k ≤ i := by omega
  simp [this]

/-- The mask above bit `k` recovers the aligned part. -/
theorem land_highMask_lor {k a f : Nat} (ha : 2 ^ k ∣ a) (hf : f < 2 ^ k) (hk : k ≤ 32)
    (hlt : a < 2 ^ 32) : (a ||| f) &&& (2 ^ 32 - 2 ^ k) = a := by
  have hlt' : a ||| f < 2 ^ 32 :=
    Nat.or_lt_two_pow hlt (hf.trans_le (Nat.pow_le_pow_right (by decide) hk))
  rw [land_highMask hlt' hk, lor_aligned ha hf]
  obtain ⟨b, rfl⟩ := ha
  rw [Nat.mul_add_div (Nat.two_pow_pos k), Nat.div_eq_of_lt hf, Nat.add_zero, Nat.mul_comm]

/-- Four bytes put together by shifts are the word that they stand for. -/
theorem lor_shiftLeft_bytes {b₀ b₁ b₂ b₃ : Nat} (h₀ : b₀ < 2 ^ 8) (h₁ : b₁ < 2 ^ 8)
    (h₂ : b₂ < 2 ^ 8) :
    b₃ <<< 24 ||| b₂ <<< 16 ||| b₁ <<< 8 ||| b₀ =
      b₀ + 2 ^ 8 * b₁ + 2 ^ 16 * b₂ + 2 ^ 24 * b₃ := by
  have hlor : ∀ {a b i : Nat}, b < 2 ^ i → a <<< i ||| b = a <<< i + b := fun hb ↦
    (Nat.shiftLeft_add_eq_or_of_lt hb _).symm
  have hhigh : b₃ <<< 24 + b₂ <<< 16 = (2 ^ 8 * b₃ + b₂) <<< 16 := by
    simp only [Nat.shiftLeft_eq]
    omega
  have hmid : (2 ^ 8 * b₃ + b₂) <<< 16 + b₁ <<< 8 = (2 ^ 16 * b₃ + 2 ^ 8 * b₂ + b₁) <<< 8 := by
    simp only [Nat.shiftLeft_eq]
    omega
  rw [hlor (by simp only [Nat.shiftLeft_eq]; omega), hhigh,
    hlor (by simp only [Nat.shiftLeft_eq]; omega), hmid, hlor h₀]
  simp only [Nat.shiftLeft_eq]
  omega

end Illinix.Base
