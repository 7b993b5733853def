import Mathlib.Data.Nat.Bitwise
import Mathlib.Tactic.Ring
import Mathlib.Tactic.NormNum

/-!
# Flipping one bit of a word

`x ^^^ 2 ^ k` is `2 ^ k` away from `x`, upwards when bit `k` of `x` is clear and downwards when it is
set, and masking `x` with it leaves the lower of the two. Read as a signed 32-bit number the same
holds for every bit below the sign bit, wherever the word stands: nothing is assumed about how `x`
is aligned.
-/

/-- Flipping bit `k` adds or subtracts `2 ^ k`. -/
theorem Nat.xor_two_pow_eq (x k : ℕ) :
    x ^^^ 2 ^ k = if x.testBit k then x - 2 ^ k else x + 2 ^ k := by
  induction k generalizing x with
  | zero =>
      have h₁ : (x ^^^ 1) / 2 = x / 2 := by simpa using Nat.xor_div_two (a := x) (b := 1)
      have h₂ : (x ^^^ 1) % 2 = (x + 1) % 2 := Nat.xor_mod_two_eq
      rw [Nat.pow_zero, Nat.testBit_zero]
      by_cases hx : x % 2 = 1
      · simp only [hx, decide_true, if_true]
        omega
      · simp only [hx, decide_false, Bool.false_eq_true, if_false]
        omega
  | succ k ih =>
      have h₁ : (x ^^^ 2 ^ (k + 1)) / 2 = x / 2 ^^^ 2 ^ k := by
        rw [Nat.xor_div_two, show 2 ^ (k + 1) / 2 = 2 ^ k by omega]
      have h₂ : (x ^^^ 2 ^ (k + 1)) % 2 = (x + 2 ^ (k + 1)) % 2 := Nat.xor_mod_two_eq
      rw [ih] at h₁
      rw [Nat.testBit_succ]
      cases hb : (x / 2).testBit k with
      | true =>
          have hle := Nat.ge_two_pow_of_testBit hb
          simp only [hb, if_true] at h₁ ⊢
          omega
      | false =>
          simp only [hb, Bool.false_eq_true, if_false] at h₁ ⊢
          omega

namespace BitVec

/-- The word with the single bit `k`. -/
theorem getLsbD_one_shiftLeft {w : ℕ} (k : ℕ) {i : ℕ} (hi : i < w) :
    (1#w <<< k).getLsbD i = decide (i = k) := by
  have hw : 0 < w := by omega
  rw [getLsbD_shiftLeft, getLsbD_one]
  by_cases h : i = k
  · subst h
    simp [hi, hw]
  · rcases Nat.lt_or_gt_of_ne h with h' | h'
    · simp [h, h']
    · simp [h, Nat.sub_ne_zero_of_lt h']

/-- Flipping a bit below the sign bit keeps the sign bit. -/
theorem msb_xor_bit (x : BitVec 32) {k : ℕ} (hk : k < 31) : (x ^^^ (1#32 <<< k)).msb = x.msb := by
  rw [msb_eq_getLsbD_last, msb_eq_getLsbD_last, getLsbD_xor, getLsbD_one_shiftLeft k (by omega)]
  simp [show ¬ (32 - 1 = k) by omega]

/-- Flipping a bit below the sign bit keeps a negative value negative. -/
theorem toInt_xor_bit_neg {x : BitVec 32} {k : ℕ} (hk : k < 31) (hx : x.toInt < 0) :
    (x ^^^ (1#32 <<< k)).toInt < 0 := by
  have h := msb_xor_bit x hk
  rw [msb_eq_toInt, msb_eq_toInt] at h
  simpa [hx] using h

/-- Flipping a bit below the sign bit moves the signed value by `2 ^ k`, and the bitwise `and` of the
two words is the lower one. -/
theorem toInt_xor_bit (x : BitVec 32) {k : ℕ} (hk : k < 31) :
    ((x ^^^ (1#32 <<< k)).toInt = x.toInt + 2 ^ k ∧ x &&& (x ^^^ (1#32 <<< k)) = x) ∨
      ((x ^^^ (1#32 <<< k)).toInt = x.toInt - 2 ^ k ∧
        x &&& (x ^^^ (1#32 <<< k)) = x ^^^ (1#32 <<< k)) := by
  set y := x ^^^ (1#32 <<< k) with hydef
  have hT : (1#32 <<< k).toNat = 2 ^ k := by
    rw [toNat_shiftLeft, Nat.shiftLeft_eq]
    have : 2 ^ k < 2 ^ 32 := Nat.pow_lt_pow_right (by norm_num) (by omega)
    simpa using Nat.mod_eq_of_lt this
  have hmsb : y.msb = x.msb := msb_xor_bit x hk
  have hy : y.toNat = if x.getLsbD k then x.toNat - 2 ^ k else x.toNat + 2 ^ k := by
    rw [hydef, toNat_xor, hT, Nat.xor_two_pow_eq]
    rfl
  have hbits : ∀ i < 32, (x &&& y).getLsbD i = (x.getLsbD i && (x.getLsbD i ^^ decide (i = k))) := by
    intro i hi
    rw [getLsbD_and, hydef, getLsbD_xor, getLsbD_one_shiftLeft k hi]
  simp only [toInt_eq_msb_cond, hmsb, hy]
  cases hx : x.getLsbD k with
  | false =>
      refine Or.inl ⟨?_, eq_of_getLsbD_eq fun i hi => ?_⟩
      · split <;> push_cast <;> ring
      · rw [hbits i hi]
        by_cases h : i = k
        · simp [h, hx]
        · simp [h]
  | true =>
      have hle : 2 ^ k ≤ x.toNat := Nat.ge_two_pow_of_testBit hx
      refine Or.inr ⟨?_, eq_of_getLsbD_eq fun i hi => ?_⟩
      · simp only [if_true]
        split <;> push_cast [Nat.cast_sub hle] <;> ring
      · rw [hbits i hi, hydef, getLsbD_xor, getLsbD_one_shiftLeft k hi]
        by_cases h : i = k
        · simp [h, hx]
        · simp [h]

end BitVec
