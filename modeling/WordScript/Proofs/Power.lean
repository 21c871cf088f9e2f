import Mathlib
import WordScript.Machine.Host

/-! Powers of words.

A round of squaring and multiplying keeps `result * base ^ e`, so that the rounds for all binary
digits of the exponent leave the power. The products wrap around, which is the same as wrapping the
power of the integers. -/
namespace WordScript
namespace Word

def integerPart (q : ℚ) : Int := if 0 ≤ q then ⌊q⌋ else ⌈q⌉

theorem round_mul_pow (r b : Word) (e : Nat) :
    (if e % 2 = 1 then r * b else r) * (b * b) ^ (e / 2) = r * b ^ e := by
  rw [← pow_two, ← pow_mul]
  split
  · rw [mul_assoc, ← pow_succ', show 2 * (e / 2) + 1 = e by omega]
  · rw [show 2 * (e / 2) = e by omega]

theorem raise_eq (bits : Nat) (r b : Word) (fits : e < 2 ^ bits) :
    raise bits r b e = r * b ^ e := by
  induction bits generalizing r b e with
  | zero =>
    obtain rfl : e = 0 := by omega
    rw [raise, pow_zero, mul_one]
  | succ n ih => rw [raise, ih _ _ (by omega), round_mul_pow]

theorem toInt_pow (b : Word) (n : Nat) : (b ^ n).toInt = (b.toInt ^ n).bmod (2 ^ 32) := by
  have wraps : BitVec.ofInt 32 (b.toInt ^ n) = b ^ n := by
    induction n with
    | zero =>
      rw [pow_zero]
      rfl
    | succ n ih => rw [pow_succ, BitVec.ofInt_mul, ih, BitVec.ofInt_toInt, pow_succ]
  rw [← wraps, BitVec.toInt_ofInt]

theorem integerPart_eq_zero (h : |q| < 1) : integerPart q = 0 := by
  obtain ⟨above, below⟩ := abs_lt.1 h
  rw [integerPart]
  split
  · rename_i sign
    exact Int.floor_eq_zero_iff.2 ⟨sign, below⟩
  · rename_i sign
    exact Int.ceil_eq_zero_iff.2 ⟨above, (not_le.1 sign).le⟩

/-- A power with a negative exponent is a proper fraction unless its base is a unit or zero. -/
theorem abs_zpow_lt_one {b e : Int} (zero : b ≠ 0) (one : b ≠ 1) (negOne : b ≠ -1) (neg : e < 0) :
    |(b : ℚ) ^ e| < 1 := by
  have large : (1 : ℚ) < |(b : ℚ)| := by
    have : 1 < |b| := by
      rcases abs_cases b with h | h <;> omega
    exact_mod_cast this
  rw [abs_zpow]
  exact zpow_lt_one_of_neg₀ large neg

theorem integerPart_neg_one_zpow (e : Int) :
    integerPart ((-1 : ℚ) ^ e) = if e % 2 = 0 then 1 else -1 := by
  split
  · rename_i even
    rw [(Int.even_iff.2 even).neg_one_zpow]
    norm_num [integerPart]
  · rw [(Int.odd_iff.2 (by omega)).neg_one_zpow]
    norm_num [integerPart]

/-- A power is that of the integers modulo 2 ^ 32, as a signed word. With a negative exponent it is
the integer part of the fraction, and zero for base zero. -/
theorem toInt_power (base e : Word) :
    (power base e).toInt =
      if 0 ≤ e.toInt then (base.toInt ^ e.toInt.toNat).bmod (2 ^ 32)
      else if base.toInt = 0 then 0 else integerPart ((base.toInt : ℚ) ^ e.toInt) := by
  have sign : e.slt 0 = decide (e.toInt < 0) := rfl
  have value := BitVec.toInt_eq_toNat_cond e
  rw [power, sign]
  by_cases neg : e.toInt < 0
  · simp only [neg, decide_true, if_true, not_le.2 neg, if_false]
    by_cases one : base = 1
    · subst one
      simp [integerPart]
    by_cases negOne : base = -1
    · subst negOne
      have parity : e.toNat % 2 = 0 ↔ e.toInt % 2 = 0 := by omega
      have unit : BitVec.toInt (-1 : Word) = -1 := rfl
      simp only [one, if_false, if_true, unit, Int.cast_neg, Int.cast_one,
        integerPart_neg_one_zpow, parity]
      split <;> simp
    · rw [if_neg one, if_neg negOne]
      split
      · rfl
      · rename_i zero
        refine (integerPart_eq_zero (abs_zpow_lt_one zero ?_ ?_ neg)).symm
        · exact fun h => one (BitVec.eq_of_toInt_eq h)
        · exact fun h => negOne (BitVec.eq_of_toInt_eq h)
  · have fits := e.isLt
    have exponent : e.toInt.toNat = e.toNat := by omega
    simp only [neg, decide_false, Bool.false_eq_true, if_false, not_lt.1 neg, if_true, exponent]
    rw [raise_eq 32 1 base fits, one_mul, toInt_pow]

end Word
end WordScript
