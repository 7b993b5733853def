import Mathlib

/-!
# Moving bytes that overlap

Reference: `lib/string.c` (`memmove`, `memcpy`).

For a move to a higher address that overlaps, `memmove` starts with the byte at `dest + n`, which is one too far, and
goes down: first single bytes until the address is a multiple of 4, or would be if it had started one lower, then
words, then what is left. So the byte behind the destination is written, and some of the first bytes are not.

* `memmove_up` — which bytes are moved, in a move to a higher address.
-/

namespace Shaunos

/-! ## The code -/

/-- Bytes, by their addresses. -/
abbrev ByteMem := ℕ → BitVec 8

namespace ByteMem

variable (mem : ByteMem)

/-- One `movsb`, `movsw` or `movsl`, of `w` bytes: they are read before they are written. -/
def movs (w d s : ℕ) : ByteMem := fun k => if d ≤ k ∧ k < d + w then mem (s + (k - d)) else mem k

/-- `movs` with the direction flag, `count` times: from `d` and `s` on downwards. -/
def movsDown (w : ℕ) : (count : ℕ) → ByteMem → (d s : ℕ) → ByteMem
  | 0, mem, _, _ => mem
  | count + 1, mem, d, s => movsDown w count (mem.movs w d s) (d - w) (s - w)

/-- `memcpy`, to a place that does not overlap or to a lower address. -/
def memcpy (dest src n : ℕ) : ByteMem := mem.movs n dest src

/-- `memset` with 0. -/
def bzero (s n : ℕ) : ByteMem := fun k => if s ≤ k ∧ k < s + n then 0 else mem k

/-- The bytes that are left after the words. -/
def movsTail (rest d s : ℕ) : ByteMem :=
  match rest with
  | 0 => mem
  | 1 => mem.movs 1 d s
  | 2 => mem.movs 2 d s
  | _ => (mem.movs 2 d s).movs 1 (d - 2) (s - 2)

/-- The branch of `memmove` for an overlap. -/
def memmoveUp (dest src n : ℕ) : ByteMem :=
  let d := dest + n
  let s := src + n
  -- both n and the number of single bytes are from d & 3
  let pad := (4 - d % 4) % 4
  let n := n - pad
  ((movsDown 4 (n / 4) (mem.movsDown 1 pad d s) (d - pad) (s - pad)).movsTail (n % 4)
    (d - pad - 4 * (n / 4)) (s - pad - 4 * (n / 4)))

def memmove (dest src n : ℕ) : ByteMem :=
  if n = 0 then mem
  else if src < dest ∧ dest ≤ src + n then mem.memmoveUp dest src n
  else mem.memcpy dest src n

end ByteMem

/-! ## Which bytes are moved -/

/-- The byte is one of those that `memmoveUp` writes. -/
def MovedUp (dest n k : ℕ) : Prop :=
  let pad := (4 - (dest + n) % 4) % 4
  let rest := (n - pad) % 4
  dest < k ∧ ((dest + n < k + pad ∧ k ≤ dest + n) ∨ (dest + rest + 4 ≤ k ∧ k + pad < dest + n + 4) ∨
    (rest = 1 ∧ k = dest + 1) ∨ (rest = 2 ∧ (k = dest + 2 ∨ k = dest + 3)) ∨
    (rest = 3 ∧ (k = dest + 1 ∨ k = dest + 3 ∨ k = dest + 4)))

instance (dest n k : ℕ) : Decidable (MovedUp dest n k) := inferInstanceAs (Decidable (_ ∧ (_ ∨ _ ∨ _ ∨ _ ∨ _)))

namespace ByteMem

variable {mem : ByteMem} {W : ℕ → Prop} [DecidablePred W] {δ w d dest n : ℕ}

/-- Some bytes are moved by `δ`. -/
def shifted (mem : ByteMem) (W : ℕ → Prop) [DecidablePred W] (δ : ℕ) : ByteMem :=
  fun k => if W k then mem (k - δ) else mem k

theorem shifted_congr {V : ℕ → Prop} [DecidablePred V] (h : ∀ k, W k ↔ V k) : mem.shifted W δ = mem.shifted V δ := by
  funext k
  simp only [shifted, h]

theorem shifted_false : mem.shifted (fun _ => False) δ = mem := by
  funext k
  rw [shifted, if_neg id]

theorem shifted_of_not {k : ℕ} (h : ¬ W k) : mem.shifted W δ k = mem k := if_neg h

/-- Bytes below those that were moved are moved too. -/
theorem movs_shifted (hW : ∀ k, W k → d ≤ k) (hw : w ≤ δ) (hd : δ ≤ d) :
    (mem.shifted W δ).movs w d (d - δ) = mem.shifted (fun k => W k ∨ d ≤ k ∧ k < d + w) δ := by
  funext k
  by_cases hin : d ≤ k ∧ k < d + w
  · have hnot : ¬ W (k - δ) := fun hk => by
      have := hW _ hk
      omega
    have hor : W k ∨ d ≤ k ∧ k < d + w := Or.inr hin
    rw [movs, if_pos hin, show d - δ + (k - d) = k - δ by omega, shifted_of_not hnot, shifted, if_pos hor]
  · rw [movs, if_neg hin, shifted, shifted]
    simp only [hin, or_false]

theorem movsDown_shifted (count : ℕ) (hW : ∀ k, W k → d ≤ k) (hpos : 0 < w) (hw : w ≤ δ) (hd : δ + w * count ≤ d + w) :
    movsDown w count (mem.shifted W δ) d (d - δ) =
      mem.shifted (fun k => W k ∨ d + w ≤ k + w * count ∧ k < d + w ∧ 0 < count) δ := by
  induction count generalizing W d with
  | zero =>
      rw [movsDown]
      exact shifted_congr fun k => by simp
  | succ count ih =>
      rw [Nat.mul_succ] at hd
      rw [movsDown, movs_shifted hW hw (by omega), show d - δ - w = d - w - δ by omega]
      by_cases hzero : count = 0
      · subst hzero
        rw [movsDown]
        refine shifted_congr fun k => or_congr Iff.rfl ?_
        rw [Nat.mul_succ, Nat.mul_zero]
        omega
      · have hle : w ≤ w * count := Nat.le_mul_of_pos_right w (Nat.pos_of_ne_zero hzero)
        rw [ih (fun k hk => ?_) (by omega)]
        · refine shifted_congr fun k => ?_
          rw [or_assoc, Nat.mul_succ]
          exact or_congr Iff.rfl (by omega)
        · rcases hk with hk | hk
          · have := hW k hk
            omega
          · omega

theorem movsTail_shifted (rest : ℕ) (hrest : rest < 4) (hW : ∀ k, W k → d ≤ k) (hδ : 4 ≤ δ) (hd : δ + (rest - 1) ≤ d) :
    (mem.shifted W δ).movsTail rest d (d - δ) = mem.shifted (fun k => W k ∨ (rest = 1 ∧ k = d) ∨
      (2 ≤ rest ∧ (k = d ∨ k = d + 1)) ∨ (rest = 3 ∧ k = d - 2)) δ := by
  match rest, hrest with
  | 0, _ => exact shifted_congr fun k => by simp
  | 1, _ =>
      rw [movsTail, movs_shifted hW (by omega) (by omega)]
      exact shifted_congr fun k => or_congr Iff.rfl (by omega)
  | 2, _ =>
      rw [movsTail, movs_shifted hW (by omega) (by omega)]
      exact shifted_congr fun k => or_congr Iff.rfl (by omega)
  | 3, _ =>
      rw [movsTail, movs_shifted hW (by omega) (by omega), show d - δ - 2 = d - 2 - δ by omega]
      · rw [movs_shifted (fun k hk => ?_) (by omega) (by omega)]
        · refine shifted_congr fun k => ?_
          rw [or_assoc]
          exact or_congr Iff.rfl (by omega)
        · rcases hk with hk | hk
          · have := hW k hk
            omega
          · omega
      all_goals simp

/-- A move of `n` bytes, by `δ` to a higher address. -/
theorem memmove_up (hδ : 4 ≤ δ) (hle : δ ≤ n) (hd : δ ≤ dest) (k : ℕ) :
    mem.memmove dest (dest - δ) n k = if MovedUp dest n k then mem (k - δ) else mem k := by
  have hup : dest - δ < dest ∧ dest ≤ dest - δ + n := by omega
  rw [memmove, if_neg (by omega), if_pos hup, memmoveUp]
  generalize hpad : (4 - (dest + n) % 4) % 4 = pad
  generalize hq : (n - pad) / 4 = q
  generalize hrest : (n - pad) % 4 = rest
  have hpad4 : pad < 4 := by omega
  have hn : n = pad + 4 * q + rest := by omega
  simp only [show dest - δ + n = dest + n - δ by omega]
  have hbytes : (mem.shifted (fun _ => False) δ).movsDown 1 pad (dest + n) (dest + n - δ) = _ :=
    movsDown_shifted pad (fun k hk => hk.elim) (by omega) (by omega) (by omega)
  rw [shifted_false] at hbytes
  rw [hbytes, show dest + n - δ - pad = dest + n - pad - δ by omega, movsDown_shifted q ?_ (by omega) hδ (by omega),
    show dest + n - pad - δ - 4 * q = dest + n - pad - 4 * q - δ by omega,
    movsTail_shifted rest (by omega) ?_ hδ (by omega), shifted]
  · refine if_congr ?_ rfl rfl
    simp only [MovedUp, hpad, hrest, false_or]
    have hrest4 : rest < 4 := by omega
    clear hbytes hup hd hle hδ
    -- one case for each number of bytes behind the last word
    interval_cases rest <;>
      simp only [true_and, false_and, false_or, or_false, reduceCtorEq, Nat.reduceLeDiff, Nat.reduceEqDiff] <;> omega
  · intro k hk
    simp only [false_or] at hk
    omega
  · intro k hk
    simp only [false_or] at hk
    omega

end ByteMem

end Shaunos
