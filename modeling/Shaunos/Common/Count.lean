import Mathlib.Algebra.BigOperators.Group.Finset.Basic
import Mathlib.Algebra.BigOperators.Ring.Finset

/-!
# Counting the indices below a bound that have a property

`countBelow n p` is what a counter in a C structure keeps track of: how many of the `n` entries of a
table are in use, or how many of the `n` bits of a map are clear.
-/

namespace Shaunos

/-- The number of indices below `n` with the property `p`. -/
def countBelow (n : ℕ) (p : ℕ → Prop) [DecidablePred p] : ℕ := ((Finset.range n).filter p).card

variable {n : ℕ} {p q : ℕ → Prop} [DecidablePred p] [DecidablePred q]

theorem countBelow_le (n : ℕ) (p : ℕ → Prop) [DecidablePred p] : countBelow n p ≤ n := by
  unfold countBelow
  exact (Finset.card_filter_le _ _).trans (by simp)

theorem countBelow_congr (h : ∀ i < n, p i ↔ q i) : countBelow n p = countBelow n q := by
  unfold countBelow
  congr 1
  apply Finset.filter_congr
  intro i hi
  exact h i (Finset.mem_range.mp hi)

/-- The count is positive when some index has the property. -/
theorem countBelow_pos_iff : 0 < countBelow n p ↔ ∃ i < n, p i := by
  unfold countBelow
  rw [Finset.card_pos]
  constructor
  · rintro ⟨i, hi⟩
    rw [Finset.mem_filter, Finset.mem_range] at hi
    exact ⟨i, hi⟩
  · rintro ⟨i, hi, hp⟩
    exact ⟨i, Finset.mem_filter.mpr ⟨Finset.mem_range.mpr hi, hp⟩⟩

/-- Two properties that differ at one index at most. -/
theorem countBelow_change {i : ℕ} (hi : i < n) (h : ∀ j < n, j ≠ i → (p j ↔ q j)) :
    countBelow n q + (if p i then 1 else 0) = countBelow n p + if q i then 1 else 0 := by
  have hmem : i ∈ Finset.range n := Finset.mem_range.mpr hi
  have hrest : ∑ j ∈ (Finset.range n).erase i, (if q j then 1 else 0)
      = ∑ j ∈ (Finset.range n).erase i, if p j then 1 else 0 := by
    apply Finset.sum_congr rfl
    intro j hj
    have hj' := Finset.mem_erase.mp hj
    have hpq := h j (Finset.mem_range.mp hj'.2) hj'.1
    by_cases hp : p j
    · rw [if_pos hp, if_pos (hpq.mp hp)]
    · rw [if_neg hp, if_neg fun hq => hp (hpq.mpr hq)]
  rw [countBelow, countBelow, Finset.card_filter, Finset.card_filter,
    ← Finset.add_sum_erase _ _ hmem, ← Finset.add_sum_erase _ _ hmem, hrest]
  omega

/-- Nothing is added where no index has the property. -/
theorem countBelow_eq_of_le {m : ℕ} (hnm : n ≤ m) (h : ∀ i, n ≤ i → i < m → ¬ p i) :
    countBelow m p = countBelow n p := by
  unfold countBelow
  congr 1
  ext i
  rw [Finset.mem_filter, Finset.mem_filter, Finset.mem_range, Finset.mem_range]
  constructor
  · rintro ⟨hi, hp⟩
    exact ⟨lt_of_not_ge fun hn => h i hn hi hp, hp⟩
  · rintro ⟨hi, hp⟩
    exact ⟨by omega, hp⟩

/-- An index with the property between two bounds makes a difference. -/
theorem countBelow_lt {m i : ℕ} (hn : n ≤ i) (hm : i < m) (hp : p i) :
    countBelow n p < countBelow m p := by
  unfold countBelow
  apply Finset.card_lt_card
  rw [Finset.ssubset_iff_of_subset (Finset.filter_subset_filter _
    (Finset.range_subset_range.mpr (by omega)))]
  refine ⟨i, Finset.mem_filter.mpr ⟨Finset.mem_range.mpr hm, hp⟩, fun hi => ?_⟩
  have := Finset.mem_range.mp (Finset.mem_filter.mp hi).1
  omega

/-- Counting a value in a table that is read out into a list. -/
theorem count_map_range {α : Type*} [DecidableEq α] (f : ℕ → α) (n : ℕ) (a : α) :
    ((List.range n).map f).count a = countBelow n fun i => f i = a := by
  induction n with
  | zero => rfl
  | succ n ih =>
      rw [List.range_succ, List.map_append, List.count_append, ih]
      unfold countBelow
      rw [Finset.range_add_one, Finset.filter_insert]
      by_cases hn : f n = a
      · simp [hn]
      · simp [hn]

end Shaunos
