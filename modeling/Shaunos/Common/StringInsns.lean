import Mathlib

/-!
# String instructions

`movs` and `stos` for one, two and four bytes, with a `rep` prefix or without, over all addresses of 32 bits. An offset
is the distance from the first byte, modulo `2 ^ 32`.

* `Mem.copy_append`, `Mem.fill_append` — pieces behind each other are one piece;
* `Mem.repMovs_up`, `Mem.repStos_up` — what is left of a `rep` prefix.
-/

namespace Shaunos.Insns

abbrev Byte := BitVec 8

/-- Bytes, by their addresses. -/
abbrev Mem := BitVec 32 → Byte

/-- How far `k` is behind `d`. -/
def offset (d k : BitVec 32) : ℕ := (k - d).toNat

namespace Mem

variable (mem : Mem)

/-- `n` bytes from `s` on are copied to `d`: all are read before any is written. -/
def copy (n : ℕ) (d s : BitVec 32) : Mem := fun k => if offset d k < n then mem (s + (k - d)) else mem k

/-- `n` bytes from `d` on become `b`. -/
def fill (n : ℕ) (d : BitVec 32) (b : Byte) : Mem := fun k => if offset d k < n then b else mem k

/-- `n` bytes from `d` on become those of words of `w` bytes. -/
def fillWords (w n : ℕ) (d eax : BitVec 32) : Mem := fun k =>
  if offset d k < n then eax.extractLsb' (8 * (offset d k % w)) 8 else mem k

/-- One `movs` of `w` bytes. -/
def movs (w : ℕ) (d s : BitVec 32) : Mem := mem.copy w d s

/-- One `stos` of `w` bytes of `eax`. -/
def stos (w : ℕ) (d : BitVec 32) (eax : BitVec 32) : Mem := fun k =>
  if offset d k < w then eax.extractLsb' (8 * offset d k) 8 else mem k

/-- `rep; movs`: with the direction flag clear, `step` is `w`, and else `-w`. -/
def repMovs (w : ℕ) (step : BitVec 32) : (count : ℕ) → Mem → (d s : BitVec 32) → Mem
  | 0, mem, _, _ => mem
  | count + 1, mem, d, s => repMovs w step count (mem.movs w d s) (d + step) (s + step)

/-- `rep; stos` -/
def repStos (w : ℕ) (step : BitVec 32) (eax : BitVec 32) : (count : ℕ) → Mem → (d : BitVec 32) → Mem
  | 0, mem, _ => mem
  | count + 1, mem, d => repStos w step eax count (mem.stos w d eax) (d + step)

end Mem

/-- Bytes can be copied from the first one on: those that are written are not read later. -/
def Forward (d s : BitVec 32) (n : ℕ) : Prop := offset d s + n ≤ 2 ^ 32

section

variable {mem : Mem} {a b n m w count : ℕ} {d s k step eax : BitVec 32} {x : Byte}

theorem offset_lt (d k : BitVec 32) : offset d k < 2 ^ 32 := (k - d).isLt

theorem offset_self (d : BitVec 32) : offset d d = 0 := by
  rw [offset, BitVec.sub_self]
  rfl

theorem offset_add (h : n < 2 ^ 32) (d : BitVec 32) : offset d (d + BitVec.ofNat 32 n) = n := by
  rw [offset, add_sub_cancel_left, BitVec.toNat_ofNat, Nat.mod_eq_of_lt h]

theorem toNat_sub_eq (d k : BitVec 32) : offset d k = (2 ^ 32 - d.toNat + k.toNat) % 2 ^ 32 := BitVec.toNat_sub k d

theorem eq_add_offset (d k : BitVec 32) : k = d + BitVec.ofNat 32 (offset d k) := by
  rw [offset, BitVec.ofNat_toNat, BitVec.setWidth_eq, BitVec.add_comm, BitVec.sub_add_cancel]

/-- Behind the first `a` bytes. -/
theorem offset_add_lt_iff (h : a + b ≤ 2 ^ 32) (d k : BitVec 32) :
    offset (d + BitVec.ofNat 32 a) k < b ↔ a ≤ offset d k ∧ offset d k < a + b := by
  rw [toNat_sub_eq, toNat_sub_eq, BitVec.toNat_add, BitVec.toNat_ofNat]
  have hd := d.isLt
  have hk := k.isLt
  omega

theorem offset_add_eq (h : a ≤ offset d k) : offset (d + BitVec.ofNat 32 a) k = offset d k - a := by
  have hlt := offset_lt d k
  rw [toNat_sub_eq] at h hlt ⊢
  rw [toNat_sub_eq, BitVec.toNat_add, BitVec.toNat_ofNat]
  have hd := d.isLt
  have hk := k.isLt
  omega

theorem offset_sub_eq (h : offset d k + a < 2 ^ 32) : offset (d + -BitVec.ofNat 32 a) k = offset d k + a := by
  have hsum : k - (d + -BitVec.ofNat 32 a) = (k - d) + BitVec.ofNat 32 a := by ring
  have ha : (BitVec.ofNat 32 a).toNat = a := by
    rw [BitVec.toNat_ofNat]
    exact Nat.mod_eq_of_lt (by omega)
  rw [offset, hsum, BitVec.toNat_add, ha]
  exact Nat.mod_eq_of_lt h

theorem sub_add_right (d k x : BitVec 32) : s + x + (k - (d + x)) = s + (k - d) := by
  ring

/-- The byte that is copied to `k`. -/
theorem offset_source (h : offset d s + offset d k < 2 ^ 32) : offset d (s + (k - d)) = offset d s + offset d k := by
  have hsum : s + (k - d) - d = (s - d) + (k - d) := by ring
  rw [offset, hsum, BitVec.toNat_add]
  exact Nat.mod_eq_of_lt h

theorem offset_add_add (d s x : BitVec 32) : offset (d + x) (s + x) = offset d s := by
  have hsame : s + x - (d + x) = s - d := by ring
  rw [offset, hsame, offset]

theorem Forward.mono (h : Forward d s n) (hle : m ≤ n) : Forward d s m := (Nat.add_le_add_left hle _).trans h

theorem Forward.shift (h : Forward d s n) (x : BitVec 32) : Forward (d + x) (s + x) n := by
  rw [Forward, offset_add_add]
  exact h

namespace Mem

theorem copy_zero (mem : Mem) (d s : BitVec 32) : mem.copy 0 d s = mem := by
  funext k
  exact if_neg (Nat.not_lt_zero _)

/-- Two pieces behind each other. -/
theorem copy_append (h : Forward d s (a + b)) :
    (mem.copy a d s).copy b (d + BitVec.ofNat 32 a) (s + BitVec.ofNat 32 a) = mem.copy (a + b) d s := by
  have hle : a + b ≤ 2 ^ 32 := (Nat.le_add_left _ _).trans h
  funext k
  rw [copy, sub_add_right]
  by_cases hin : offset (d + BitVec.ofNat 32 a) k < b
  · obtain ⟨hge, hlt⟩ := (offset_add_lt_iff hle d k).mp hin
    have hbehind : ¬ offset d (s + (k - d)) < a := by
      rw [offset_source (Nat.lt_of_lt_of_le (Nat.add_lt_add_left hlt _) h)]
      omega
    rw [if_pos hin, copy, if_neg hbehind, copy, if_pos hlt]
  · rw [if_neg hin, copy, copy]
    rw [offset_add_lt_iff hle] at hin
    by_cases hfirst : offset d k < a
    · rw [if_pos hfirst, if_pos (by omega)]
    · rw [if_neg hfirst, if_neg (by omega)]

theorem repMovs_up (h : Forward d s (w * count)) :
    repMovs w (BitVec.ofNat 32 w) count mem d s = mem.copy (w * count) d s := by
  induction count generalizing mem d s with
  | zero => exact (copy_zero mem d s).symm
  | succ count ih =>
      rw [Nat.mul_succ, Nat.add_comm (w * count)] at h ⊢
      have hrest := (h.mono (Nat.le_add_left _ _)).shift (BitVec.ofNat 32 w)
      rw [repMovs, ih hrest, movs, copy_append h]

/-- A `rep; movs` downwards does not come to what is above its first word. -/
theorem repMovs_down_frame (hge : w ≤ offset d k) (hle : offset d k + w * count ≤ 2 ^ 32) (hw : 0 < w) :
    repMovs w (-BitVec.ofNat 32 w) count mem d s k = mem k := by
  induction count generalizing mem d s with
  | zero => rfl
  | succ count ih =>
      rw [Nat.mul_succ] at hle
      have hkeep : mem.movs w d s k = mem k := if_neg (Nat.not_lt.mpr hge)
      rcases Nat.eq_zero_or_pos count with rfl | hpos
      · exact hkeep
      have hmul : w ≤ w * count := Nat.le_mul_of_pos_right w hpos
      have hnext := offset_sub_eq (d := d) (k := k) (a := w) (by omega)
      rw [repMovs, ih (by omega) (by omega), hkeep]

/-- Where all bytes are 0, they stay so. -/
theorem movs_zero (w : ℕ) (d s : BitVec 32) : movs (fun _ => 0) w d s = fun _ => 0 := by
  funext k
  exact ite_self _

theorem repMovs_zero (w : ℕ) (step : BitVec 32) (count : ℕ) (d s : BitVec 32) :
    repMovs w step count (fun _ => 0) d s = fun _ => 0 := by
  induction count generalizing d s with
  | zero => rfl
  | succ count ih => rw [repMovs, movs_zero, ih]

theorem fill_zero (mem : Mem) (d : BitVec 32) (x : Byte) : mem.fill 0 d x = mem := by
  funext k
  exact if_neg (Nat.not_lt_zero _)

theorem fill_append (h : a + b ≤ 2 ^ 32) :
    (mem.fill a d x).fill b (d + BitVec.ofNat 32 a) x = mem.fill (a + b) d x := by
  funext k
  rw [fill, fill, fill]
  have hiff := offset_add_lt_iff h d k
  by_cases hin : offset (d + BitVec.ofNat 32 a) k < b
  · rw [if_pos hin, if_pos (hiff.mp hin).2]
  · rw [if_neg hin]
    rw [hiff] at hin
    by_cases hfirst : offset d k < a
    · rw [if_pos hfirst, if_pos (by omega)]
    · rw [if_neg hfirst, if_neg (by omega)]

/-- A word whose bytes are all the same. -/
theorem stos_eq_fill (h : ∀ i < w, eax.extractLsb' (8 * i) 8 = x) : mem.stos w d eax = mem.fill w d x := by
  funext k
  rw [stos, fill]
  split_ifs with hin
  · exact h _ hin
  · rfl

theorem repStos_words (hle : w * count ≤ 2 ^ 32) :
    repStos w (BitVec.ofNat 32 w) eax count mem d = mem.fillWords w (w * count) d eax := by
  induction count generalizing mem d with
  | zero =>
      funext k
      exact (if_neg (Nat.not_lt_zero _)).symm
  | succ count ih =>
      rw [Nat.mul_succ, Nat.add_comm (w * count)] at hle ⊢
      rw [repStos, ih ((Nat.le_add_left _ _).trans hle)]
      funext k
      have hiff := offset_add_lt_iff hle d k
      rw [fillWords, fillWords]
      by_cases hin : offset (d + BitVec.ofNat 32 w) k < w * count
      · obtain ⟨hge, hlt⟩ := hiff.mp hin
        rw [if_pos hin, if_pos hlt, offset_add_eq hge, ← Nat.mod_eq_sub_mod hge]
      · rw [if_neg hin, stos]
        rw [hiff] at hin
        by_cases hfirst : offset d k < w
        · rw [if_pos hfirst, if_pos (by omega), Nat.mod_eq_of_lt hfirst]
        · rw [if_neg hfirst, if_neg (by omega)]

theorem repStos_up (hw : 0 < w) (h : ∀ i < w, eax.extractLsb' (8 * i) 8 = x) (hle : w * count ≤ 2 ^ 32) :
    repStos w (BitVec.ofNat 32 w) eax count mem d = mem.fill (w * count) d x := by
  rw [repStos_words hle]
  funext k
  rw [fillWords, fill]
  split_ifs
  · exact h _ (Nat.mod_lt _ hw)
  · rfl

end Mem

end

end Shaunos.Insns
