import Illinix.Files.Descriptor
import Mathlib.Tactic.IntervalCases

/-!
# The real-time clock

`rtc_write` sets the rate of the periodic interrupt, the low four bits of register A.  It takes a
frequency, tests that it is a power of two of at most 1024, and counts how often it can be halved.
The register is written behind that block and not inside it: a frequency that fails the test is not
refused, and the low byte of the local `rate`, which nothing has set, goes to the register.  The
test lets 1 through as well, whose rate 16 does not fit in four bits.

`rtc_write_sets_iff` says that the call does what it is for exactly at the ten frequencies that the
test program tries.
-/

namespace Illinix

/-! ## The chip -/

/-- The clock's registers, behind port `0x71`, and the one that port `0x70` selects. -/
structure Cmos where
  index : BitVec 7
  reg : BitVec 7 → BitVec 8

namespace Cmos

/-- A write to `cmosport1`; bit 7 is no part of the index, it turns NMIs off. -/
def select (c : Cmos) (value : BitVec 8) : Cmos := { c with index := value.setWidth 7 }

/-- A read of `cmosport2`, which resets the index to register D. -/
def read (c : Cmos) : BitVec 8 × Cmos := (c.reg c.index, { c with index := 0x0D })

/-- A write to `cmosport2`. -/
def write (c : Cmos) (value : BitVec 8) : Cmos :=
  { c with reg := Function.update c.reg c.index value }

/-- Register A. -/
def regA (c : Cmos) : BitVec 8 := c.reg 0x0A

end Cmos

/-! ## `rtc_write` -/

/-- The test of `rtc_write`. -/
def acceptsFreq (freq : BitVec 32) : Bool :=
  freq &&& (freq - 1) == 0 && decide (freq.toInt < 1025) && decide (freq.toInt > 0)

/-- The loop that halves `freq`; an `int` is 1 after 31 halvings at the latest. -/
def halvings : Nat → Nat → Nat → Nat
  | 0, _, counter => counter
  | fuel + 1, freq, counter =>
      if freq ≠ 1 then halvings fuel (freq / 2) (counter + 1) else counter

/-- The local `rate` where it is used; `junk` is what it held before. -/
def rtcRate (junk freq : BitVec 32) : BitVec 32 :=
  if acceptsFreq freq then BitVec.ofNat 32 (16 - halvings 32 freq.toNat 0) else junk

/-- `rtc_write`; `freq` is the word at `buf`. -/
def rtcWrite (c : Cmos) (junk freq : BitVec 32) (nbytes : Int) : Int × Cmos :=
  if nbytes ≠ 4 then (-1, c)
  else
    let prev := (c.select 0x8A).read
    let c := prev.2.select 0x8A
    (nbytes, c.write ((prev.1 &&& 0xF0) ||| (rtcRate junk freq).setWidth 8))

/-- It answers as the `write` entry of the driver table does. -/
theorem rtcWrite_ret (c : Cmos) (junk freq : BitVec 32) (dev fd nbytes : Int) :
    (rtcWrite c junk freq nbytes).1 = FdArray.driverWrite dev fd nbytes .rtc := by
  rw [rtcWrite]
  split
  · rename_i hne
    exact (if_pos hne).symm
  · rename_i heq
    exact (if_neg heq).symm

/-- What a call leaves in register A. -/
theorem rtcWrite_regA (c : Cmos) (junk freq : BitVec 32) :
    (rtcWrite c junk freq 4).2.regA = (c.regA &&& 0xF0) ||| (rtcRate junk freq).setWidth 8 := by
  rw [rtcWrite, if_neg (by decide)]
  exact Function.update_self (0x0A : BitVec 7) _ c.reg

/-! ## The rate -/

theorem halvings_two_pow {fuel k : Nat} (h : k < fuel) (counter : Nat) :
    halvings fuel (2 ^ k) counter = counter + k := by
  induction k generalizing fuel counter with
  | zero =>
      obtain ⟨fuel, rfl⟩ := Nat.exists_eq_succ_of_ne_zero (Nat.ne_zero_of_lt h)
      rfl
  | succ k ih =>
      obtain ⟨fuel, rfl⟩ := Nat.exists_eq_succ_of_ne_zero (Nat.ne_zero_of_lt h)
      have hne : 2 ^ (k + 1) ≠ 1 := by
        have := Nat.one_le_two_pow (n := k)
        rw [Nat.pow_succ]
        omega
      have hhalf : 2 ^ (k + 1) / 2 = 2 ^ k := by
        rw [Nat.pow_succ, Nat.mul_div_cancel _ (by decide)]
      rw [halvings, if_pos hne, hhalf, ih (Nat.lt_of_succ_lt_succ h), Nat.add_assoc, Nat.add_comm 1]

/-- The test lets the powers of two up to 1024 through. -/
theorem acceptsFreq_iff (freq : BitVec 32) :
    acceptsFreq freq = true ↔ ∃ k, k ≤ 10 ∧ freq.toNat = 2 ^ k := by
  rw [acceptsFreq, Bool.and_eq_true, Bool.and_eq_true, decide_eq_true_eq, decide_eq_true_eq,
    beq_iff_eq]
  have hint := BitVec.toInt_eq_toNat_cond freq
  have hlt := freq.isLt
  by_cases hpos : freq.toInt > 0
  · have hnat : freq.toInt = freq.toNat ∧ freq.toNat ≠ 0 := by
      split at hint <;> omega
    have hpred : (freq - 1).toNat = freq.toNat - 1 := by
      rw [BitVec.toNat_sub_of_le (by rw [BitVec.le_def]; simp; omega)]
      rfl
    have hand : freq &&& (freq - 1) = 0 ↔ freq.toNat.isPowerOfTwo := by
      rw [← Nat.ne_zero_and_sub_one_eq_zero_iff_isPowerOfTwo, ← BitVec.toNat_inj, BitVec.toNat_and,
        hpred]
      exact (and_iff_right hnat.2).symm
    rw [hand]
    constructor
    · rintro ⟨⟨⟨k, hk⟩, hle⟩, -⟩
      refine ⟨k, ?_, hk⟩
      by_contra hbig
      have hpow : 2 ^ 11 ≤ 2 ^ k := Nat.pow_le_pow_right (by decide) (by omega)
      omega
    · rintro ⟨k, hk, hpow⟩
      have hle : 2 ^ k ≤ 2 ^ 10 := Nat.pow_le_pow_right (by decide) hk
      exact ⟨⟨⟨k, hpow⟩, by omega⟩, hpos⟩
  · refine iff_of_false (fun h ↦ hpos h.2) ?_
    rintro ⟨k, hk, hpow⟩
    have hle : 2 ^ k ≤ 2 ^ 10 := Nat.pow_le_pow_right (by decide) hk
    have hone := Nat.one_le_two_pow (n := k)
    split at hint <;> omega

theorem rtcRate_of_accepted {junk freq : BitVec 32} {k : Nat} (hk : k ≤ 10)
    (h : freq.toNat = 2 ^ k) : rtcRate junk freq = BitVec.ofNat 32 (16 - k) := by
  rw [rtcRate, if_pos ((acceptsFreq_iff freq).mpr ⟨k, hk, h⟩), h, halvings_two_pow (by omega),
    Nat.zero_add]

/-! ## The register -/

/-- The frequencies that the clock has a rate for. -/
def HasRate (freq : BitVec 32) : Prop := ∃ k, 1 ≤ k ∧ k ≤ 10 ∧ freq.toInt = 2 ^ k

/-- A call that sets the rate of `freq`, or refuses a frequency that has none; either way it keeps
the upper half of register A. -/
def SetsRate (freq : BitVec 32) (c : Cmos) (r : Int × Cmos) : Prop :=
  (∀ k, 1 ≤ k → k ≤ 10 → freq.toInt = 2 ^ k →
    r.1 = 4 ∧ r.2.regA = (c.regA &&& 0xF0) ||| BitVec.ofNat 8 (16 - k) ∧
      ((32768 >>> ((r.2.regA &&& 0x0F).toNat - 1) : Nat) : Int) = freq.toInt) ∧
  (¬ HasRate freq → r.1 = -1 ∧ r.2.regA = c.regA) ∧
  r.2.regA &&& 0xF0 = c.regA &&& 0xF0

/-- A rate beside the upper half of a register. -/
theorem rate_beside (a : BitVec 8) {k : Nat} (hlo : 1 ≤ k) (hhi : k ≤ 10) :
    ((a &&& 0xF0) ||| BitVec.ofNat 8 (16 - k)) &&& 0x0F = BitVec.ofNat 8 (16 - k) ∧
      ((a &&& 0xF0) ||| BitVec.ofNat 8 (16 - k)) &&& 0xF0 = a &&& 0xF0 := by
  have hrate : BitVec.ofNat 8 (16 - k) &&& 0x0F = BitVec.ofNat 8 (16 - k) ∧
      BitVec.ofNat 8 (16 - k) &&& 0xF0 = 0 := by
    interval_cases k <;> decide
  have hmask : (0xF0 : BitVec 8) &&& 0x0F = 0 := by decide
  rw [BitVec.and_or_distrib_right, BitVec.and_or_distrib_right, BitVec.and_assoc, BitVec.and_assoc,
    hrate.1, hrate.2, hmask, BitVec.and_self]
  exact ⟨by simp, by simp⟩

/-- A frequency that has a rate gets it. -/
theorem setsRate_of_hasRate {freq : BitVec 32} (h : HasRate freq) (c : Cmos) (junk : BitVec 32) :
    SetsRate freq c (rtcWrite c junk freq 4) := by
  obtain ⟨k, hlo, hhi, hfreq⟩ := id h
  have hnat : freq.toNat = 2 ^ k := by
    have hint := BitVec.toInt_eq_toNat_cond freq
    have hone : (0 : Int) < 2 ^ k := Int.pow_pos (by decide)
    have hcast : ((2 ^ k : Nat) : Int) = 2 ^ k := Int.natCast_pow 2 k
    have hlt := freq.isLt
    split at hint <;> omega
  have hreg : (rtcWrite c junk freq 4).2.regA = (c.regA &&& 0xF0) ||| BitVec.ofNat 8 (16 - k) := by
    rw [rtcWrite_regA, rtcRate_of_accepted hhi hnat, BitVec.setWidth_ofNat_of_le (by decide)]
  obtain ⟨hlow, hup⟩ := rate_beside c.regA hlo hhi
  refine ⟨fun k' _ _ hfreq' ↦ ?_, fun hno ↦ absurd h hno, by rw [hreg, hup]⟩
  obtain rfl : k' = k := by
    have hpow : (2 : Int) ^ k' = 2 ^ k := hfreq'.symm.trans hfreq
    exact Int.pow_right_injective (by decide) hpow
  refine ⟨rfl, hreg, ?_⟩
  rw [hreg, hlow, hfreq]
  interval_cases k' <;> rfl

/-- **When `rtc_write` sets the requested rate or nothing.**  For every frequency, every register A
and every content of the uninitialised local it does if and only if the frequency is a power of two
from 2 to 1024. -/
theorem rtc_write_sets_iff (c : Cmos) (junk freq : BitVec 32) :
    SetsRate freq c (rtcWrite c junk freq 4) ↔ ∃ k, 1 ≤ k ∧ k ≤ 10 ∧ freq.toInt = 2 ^ k := by
  constructor
  · rintro ⟨-, hrefuse, -⟩
    -- every frequency gets the answer 4, so the call refuses none
    by_contra hno
    have hneg : (4 : Int) = -1 := (hrefuse hno).1
    omega
  · intro h
    exact setsRate_of_hasRate h c junk

/-- The frequency 3 is accepted, and the stack goes to the register. -/
theorem rtc_write_three :
    (rtcWrite ⟨0, fun _ ↦ 0x2F⟩ 0x05 3 4).1 = 4 ∧
      (rtcWrite ⟨0, fun _ ↦ 0x2F⟩ 0x05 3 4).2.regA = 0x25 ∧
      ¬ SetsRate 3 ⟨0, fun _ ↦ 0x2F⟩ (rtcWrite ⟨0, fun _ ↦ 0x2F⟩ 0x05 3 4) := by
  have hreg : (rtcWrite ⟨0, fun _ ↦ 0x2F⟩ 0x05 3 4).2.regA = 0x25 := by decide
  refine ⟨rfl, hreg, ?_⟩
  rintro ⟨-, hrefuse, -⟩
  have hno : ¬ HasRate 3 := by
    rintro ⟨k, hlo, hhi, hk⟩
    interval_cases k <;> cases hk
  have hneg : (4 : Int) = -1 := (hrefuse hno).1
  omega

end Illinix
