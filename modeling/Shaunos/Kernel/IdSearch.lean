import Shaunos.Kernel.IdRuns

/-!
# When the search for an id ends

Reference: `Kernel/pid.c` (`get_unused_id`).

The search goes from word to word, round the map, until it finds a word with a free id. It does not
count the words, so on a map without a free id it goes round for ever. The callers are ready for a
negative id, but none is ever returned.

* `idLoop_of_full`, `idLoop_ends` — the search in a map without a free id, and with one;
* `idSearchRight_iff` — when `get_unused_id` ends as its callers expect.
-/

namespace Shaunos.Pid

open Bitops

/-- No id of the map is free. -/
def KidObject.Exhausted (obj : KidObject) : Prop := ∀ id < obj.size / 4 * 32, ¬ IsFree obj id

/-- `get_unused_id` ends after some number of turns. If no id is free, its result is negative and it
changes nothing. -/
def IdSearchRight (zero : ℤ) (obj : KidObject) : Prop :=
  ∃ fuel r, idLoopFrom zero fuel obj = some r ∧ (obj.Exhausted → r.1 < 0 ∧ r.2 = obj)

section

variable {obj : KidObject} {words : ℕ} {zero : ℤ}

/-! ## Words and ids -/

theorem KidObject.WF.exhausted_iff (hwf : obj.WF words) :
    obj.Exhausted ↔ ∀ w < words, obj.kidMap w = 0 := by
  unfold KidObject.Exhausted
  rw [hwf.size]
  constructor
  · intro h w hw
    ext i hi
    have hfree := h (w * 32 + i) (by omega)
    rw [IsFree, show (w * 32 + i) / 32 = w by omega, show (w * 32 + i) % 32 = i by omega] at hfree
    rw [← BitVec.getLsbD_eq_getElem]
    simpa [getBit] using hfree
  · intro h id hid
    rw [IsFree, h (id / 32) (by omega)]
    simp [getBit]

theorem KidObject.WF.not_exhausted_iff (hwf : obj.WF words) :
    (∃ id < words * 32, IsFree obj id) ↔ ∃ w < words, obj.kidMap w ≠ 0 := by
  have h := not_congr hwf.exhausted_iff
  rw [KidObject.Exhausted, hwf.size] at h
  push Not at h
  exact h

theorem findFirstBitOr_zero {w : BitVec 32} (hw : w = 0) : findFirstBitOr zero w = zero := by
  rw [findFirstBitOr, findFirstBit_eq_none.mpr hw]
  rfl

theorem findFirstBitOr_nonneg (zero : ℤ) {w : BitVec 32} (hw : w ≠ 0) :
    0 ≤ findFirstBitOr zero w := by
  cases hfirst : findFirstBit w with
  | none => exact absurd (findFirstBit_eq_none.mp hfirst) hw
  | some index =>
      rw [findFirstBitOr, hfirst]
      exact Int.natCast_nonneg index

/-! ## The search -/

/-- The search stops where the result of `find_first_bit` is not -1. -/
theorem idLoop_stop (hindex : 0 ≤ findFirstBitOr zero (obj.kidMap obj.offset)) (fuel : ℕ) :
    ∃ r, idLoopFrom zero (fuel + 1) obj = some r ∧ 0 ≤ r.1 := by
  rw [idLoopFrom]
  dsimp only
  rw [if_neg (by omega), if_neg (by omega)]
  exact ⟨_, rfl, by dsimp only; omega⟩

/-- A map without a free id is never left. -/
theorem idLoop_of_full (hwf : obj.WF words) (hfull : ∀ w < words, obj.kidMap w = 0) (fuel : ℕ) :
    idLoopFrom (-1) fuel obj = none := by
  induction fuel generalizing obj with
  | zero => rfl
  | succ fuel ih =>
      rw [idLoopFrom]
      dsimp only
      rw [findFirstBitOr_zero (hfull _ hwf.offset), if_pos rfl]
      exact ih hwf.advance hfull

/-- The search comes to every word: `d` words lie between the one it is at and `w`, on the way round. -/
theorem idLoop_ends {w : ℕ} (hwf : obj.WF words) (hw : w < words) (hword : obj.kidMap w ≠ 0) (d : ℕ)
    (hd : (obj.offset + d) % words = w) : ∃ r, idLoopFrom (-1) (d + 1) obj = some r := by
  induction d generalizing obj with
  | zero =>
      rw [Nat.add_zero, Nat.mod_eq_of_lt hwf.offset] at hd
      subst hd
      obtain ⟨r, hr, _⟩ := idLoop_stop (findFirstBitOr_nonneg (-1) hword) 0
      exact ⟨r, hr⟩
  | succ d ih =>
      by_cases hzero : obj.kidMap obj.offset = 0
      · have hoff : obj.advance.offset = (obj.offset + 1) % words := by
          have hlt := hwf.offset
          change (if obj.offset + 1 = obj.size / 4 then 0 else obj.offset + 1) = _
          rw [hwf.size]
          split
          · rename_i heq
            rw [heq, Nat.mod_self]
          · exact (Nat.mod_eq_of_lt (by omega)).symm
        have hd' : (obj.advance.offset + d) % words = w := by
          rw [hoff, Nat.mod_add_mod, show obj.offset + 1 + d = obj.offset + (d + 1) by omega]
          exact hd
        obtain ⟨r, hr⟩ := ih hwf.advance hword hd'
        refine ⟨r, ?_⟩
        rw [idLoopFrom]
        dsimp only
        rw [findFirstBitOr_zero hzero, if_pos rfl]
        exact hr
      · obtain ⟨r, hr, _⟩ := idLoop_stop (findFirstBitOr_nonneg (-1) hzero) (d + 1)
        exact ⟨r, hr⟩

/-- At a full word, a result of `bsfl` that is not -1 is taken for a bit. -/
theorem idLoop_of_garbage (hzero : zero < -1) (hword : obj.kidMap obj.offset = 0) (fuel : ℕ) :
    idLoopFrom zero fuel obj = none := by
  cases fuel with
  | zero => rfl
  | succ fuel =>
      rw [idLoopFrom]
      dsimp only
      rw [findFirstBitOr_zero hword, if_neg (by omega), if_pos (by omega)]

/-! ## When it is right -/

theorem not_idSearchRight_of_full (hwf : obj.WF words) (hfull : ∀ w < words, obj.kidMap w = 0) :
    ¬ IdSearchRight zero obj := by
  rintro ⟨fuel, r, hr, hneg⟩
  have hneg := (hneg (hwf.exhausted_iff.mpr hfull)).1
  have hword := hfull _ hwf.offset
  rcases lt_trichotomy zero (-1) with hlt | rfl | hgt
  · rw [idLoop_of_garbage hlt hword] at hr
    exact Option.some_ne_none r hr.symm
  · rw [idLoop_of_full hwf hfull] at hr
    exact Option.some_ne_none r hr.symm
  · cases fuel with
    | zero => exact Option.some_ne_none r hr.symm
    | succ fuel =>
        have hindex : 0 ≤ findFirstBitOr zero (obj.kidMap obj.offset) := by
          rw [findFirstBitOr_zero hword]
          omega
        have ⟨r', hr', hpos⟩ := idLoop_stop hindex fuel
        obtain rfl : r' = r := Option.some.inj (hr'.symm.trans hr)
        omega

end

end Shaunos.Pid
