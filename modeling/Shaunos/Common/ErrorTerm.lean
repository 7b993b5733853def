import Mathlib

/-!
# Steps of an error term

A loop goes along one axis and has an error term `d` that starts at `2 * e - f`. In each round, with `d < 0` it adds
`2 * e`, and else it adds `2 * (e - f)` and takes a step along the other axis.

* `rise_succ` — how many steps there are after each round;
* `abs_rise_le` — for `0 ≤ e ≤ f` they are nearest to the slope `e / f`.
-/

namespace Shaunos.ErrorTerm

/-- The error term after `k` rounds with `r` steps. -/
def term (e f : ℤ) (k : ℕ) (r : ℤ) : ℤ := 2 * (k + 1) * e - (2 * r + 1) * f

/-- The steps in `k` rounds. -/
def rise (e f : ℤ) (k : ℕ) : ℤ :=
  if 0 < f ∧ 0 ≤ e then (2 * k * e + f) / (2 * f) else if e = 0 ∧ f = 0 then k else 0

section

variable {e f : ℤ}

theorem term_zero (e f : ℤ) : term e f 0 0 = 2 * e - f := by
  rw [term, Nat.cast_zero]
  ring

theorem term_succ (e f : ℤ) (k : ℕ) (r : ℤ) : term e f (k + 1) r = term e f k r + 2 * e := by
  rw [term, term, Nat.cast_succ]
  ring

theorem term_succ_succ (e f : ℤ) (k : ℕ) (r : ℤ) : term e f (k + 1) (r + 1) = term e f k r + 2 * (e - f) := by
  rw [term, term, Nat.cast_succ]
  ring

theorem rise_zero (e f : ℤ) : rise e f 0 = 0 := by
  rw [rise]
  split_ifs with h hz
  · rw [Nat.cast_zero, mul_zero, zero_mul, zero_add]
    exact Int.ediv_eq_zero_of_lt h.1.le (by omega)
  · rfl
  · rfl

/-- A quotient from its bounds. -/
theorem ediv_eq_of_bounds {a c q : ℤ} (hlow : q * c ≤ a) (hhigh : a < (q + 1) * c) (hc : 0 < c) : a / c = q := by
  have hle : q ≤ a / c := (Int.le_ediv_iff_mul_le hc).mpr hlow
  have hlt : a / c < q + 1 := (Int.ediv_lt_iff_lt_mul hc).mpr hhigh
  omega

/-- One round takes a step, or none. -/
theorem rise_succ (hef : e ≤ f) (k : ℕ) :
    rise e f (k + 1) = if term e f k (rise e f k) < 0 then rise e f k else rise e f k + 1 := by
  by_cases hpos : 0 < f ∧ 0 ≤ e
  · obtain ⟨hf, he⟩ := hpos
    have hc : 0 < 2 * f := by omega
    have hk : rise e f k = (2 * k * e + f) / (2 * f) := if_pos ⟨hf, he⟩
    have hlow : rise e f k * (2 * f) ≤ 2 * k * e + f := hk ▸ Int.ediv_mul_le _ hc.ne'
    have hhigh : 2 * k * e + f < (rise e f k + 1) * (2 * f) := hk ▸ Int.lt_ediv_add_one_mul_self _ hc
    generalize rise e f k = r at hlow hhigh ⊢
    rw [rise, if_pos ⟨hf, he⟩, Nat.cast_succ, term]
    split_ifs with hd
    · exact ediv_eq_of_bounds (by linarith) (by linarith) hc
    · exact ediv_eq_of_bounds (by linarith) (by linarith) hc
  · by_cases hzero : e = 0 ∧ f = 0
    · obtain ⟨rfl, rfl⟩ := hzero
      have hterm : ¬ term 0 0 k (rise 0 0 k) < 0 := by
        rw [term, mul_zero, mul_zero, sub_zero]
        exact lt_irrefl 0
      rw [if_neg hterm, rise, if_neg hpos, if_pos ⟨rfl, rfl⟩, rise, if_neg hpos, if_pos ⟨rfl, rfl⟩, Nat.cast_succ]
    · have hnone : ∀ k, rise e f k = 0 := fun k => by rw [rise, if_neg hpos, if_neg hzero]
      have hneg : e < 0 := by omega
      have hmul : (k : ℤ) * e ≤ 0 := mul_nonpos_of_nonneg_of_nonpos k.cast_nonneg hneg.le
      have hterm : term e f k 0 < 0 := by
        rw [term]
        linarith
      rw [hnone, hnone, if_pos hterm]

/-- With a slope between 0 and 1, the steps are the nearest integer. -/
theorem abs_rise_le (he : 0 ≤ e) (hef : e ≤ f) (k : ℕ) : |2 * (rise e f k * f - k * e)| ≤ f := by
  rcases he.trans hef |>.eq_or_lt with hzero | hf
  · have he' : e = 0 := by omega
    rw [← hzero, he', mul_zero, mul_zero, sub_zero, mul_zero, abs_zero]
  · have hc : 0 < 2 * f := by omega
    have hk : rise e f k = (2 * k * e + f) / (2 * f) := if_pos ⟨hf, he⟩
    have hlow : rise e f k * (2 * f) ≤ 2 * k * e + f := hk ▸ Int.ediv_mul_le _ hc.ne'
    have hhigh : 2 * k * e + f < (rise e f k + 1) * (2 * f) := hk ▸ Int.lt_ediv_add_one_mul_self _ hc
    rw [abs_le]
    constructor
    · linarith
    · linarith

/-- With a slope below 0 there are no steps. -/
theorem rise_of_neg (h : e < 0 ∨ f < 0) (k : ℕ) : rise e f k = 0 := by
  rw [rise, if_neg (by omega), if_neg (by omega)]

end

end Shaunos.ErrorTerm
