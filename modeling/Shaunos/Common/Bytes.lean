import Mathlib.Algebra.Order.Ring.Nat
import Mathlib.Logic.Function.Basic
import Shaunos.Common.FlipBit

/-!
# Byte memory

A memory is a total function from addresses to bytes. Numbers are stored little-endian, and a memory
can also be read as an array of bits.

* `readLE_writeLE_self`, `readLE_writeLE_of_disjoint` — a number that was stored is read back, and
  numbers stored elsewhere do not change;
* `testBit_setBit`, `testBit_clearBit` — setting or clearing a bit changes that bit only.
-/

namespace Shaunos

/-- Bytes by address. -/
abbrev Mem := ℕ → BitVec 8

namespace Mem

/-- Memory full of zeros. -/
def zero : Mem := fun _ => 0

/-! ## Numbers -/

/-- The number in the `n` bytes at `off`, the lowest byte first. -/
def readLE : (n : ℕ) → Mem → ℕ → ℕ
  | 0, _, _ => 0
  | n + 1, m, off => (m off).toNat + 256 * readLE n m (off + 1)

/-- Store `v`, as far as it fits, in the `n` bytes at `off`. -/
def writeLE (n : ℕ) (m : Mem) (off v : ℕ) : Mem := fun i =>
  if off ≤ i ∧ i < off + n then BitVec.ofNat 8 (v / 256 ^ (i - off)) else m i

/-- The 16-bit number at `off`. -/
def get16 (m : Mem) (off : ℕ) : ℕ := m.readLE 2 off

/-- The 32-bit number at `off`. -/
def get32 (m : Mem) (off : ℕ) : ℕ := m.readLE 4 off

def set16 (m : Mem) (off v : ℕ) : Mem := m.writeLE 2 off v

def set32 (m : Mem) (off v : ℕ) : Mem := m.writeLE 4 off v

theorem writeLE_of_notMem {n : ℕ} {m : Mem} {off v i : ℕ} (h : i < off ∨ off + n ≤ i) :
    m.writeLE n off v i = m i := by
  rw [writeLE, if_neg (by omega)]

/-- Only the bytes of the number are looked at. -/
theorem readLE_congr {n : ℕ} {m m' : Mem} {off : ℕ}
    (h : ∀ i, off ≤ i → i < off + n → m i = m' i) : m.readLE n off = m'.readLE n off := by
  induction n generalizing off with
  | zero => rfl
  | succ n ih =>
      rw [readLE, readLE, h off le_rfl (by omega),
        ih fun i h₁ h₂ => h i (by omega) (by omega)]

/-- The bytes of a number may stand anywhere. -/
theorem readLE_shift {n : ℕ} {m m' : Mem} {off off' : ℕ}
    (h : ∀ i < n, m (off + i) = m' (off' + i)) : m.readLE n off = m'.readLE n off' := by
  induction n generalizing off off' with
  | zero => rfl
  | succ n ih =>
      have h₀ : m off = m' off' := h 0 (by omega)
      rw [readLE, readLE, h₀]
      congr 2
      apply ih
      intro i hi
      have hi' := h (i + 1) (by omega)
      rwa [show off + (i + 1) = off + 1 + i by omega,
        show off' + (i + 1) = off' + 1 + i by omega] at hi'

theorem readLE_lt (n : ℕ) (m : Mem) (off : ℕ) : m.readLE n off < 256 ^ n := by
  induction n generalizing off with
  | zero => simp [readLE]
  | succ n ih =>
      have hbyte := (m off).isLt
      have hrest := ih (off + 1)
      rw [readLE, pow_succ]
      omega

theorem readLE_writeLE_of_disjoint {n k : ℕ} {m : Mem} {off off' v : ℕ}
    (h : off' + k ≤ off ∨ off + n ≤ off') : (m.writeLE n off v).readLE k off' = m.readLE k off' :=
  readLE_congr fun _ h₁ h₂ => writeLE_of_notMem (by omega)

theorem readLE_writeLE_self (n : ℕ) (m : Mem) (off v : ℕ) :
    (m.writeLE n off v).readLE n off = v % 256 ^ n := by
  induction n generalizing m off v with
  | zero => simp [readLE, Nat.mod_one]
  | succ n ih =>
      have hfirst : (m.writeLE (n + 1) off v) off = BitVec.ofNat 8 v := by
        simp [writeLE]
      -- the rest is the number `v / 256`, stored one byte further on
      have hrest : (m.writeLE (n + 1) off v).readLE n (off + 1) = v / 256 % 256 ^ n := by
        rw [← ih m (off + 1) (v / 256)]
        apply readLE_congr
        intro i h₁ h₂
        have hsub : i - off = i - (off + 1) + 1 := by omega
        rw [writeLE, writeLE, if_pos (by omega), if_pos (by omega), hsub, pow_succ',
          Nat.div_div_eq_div_mul]
      rw [readLE, hfirst, hrest, pow_succ', Nat.mod_mul]
      simp

theorem get32_lt (m : Mem) (off : ℕ) : m.get32 off < 2 ^ 32 := readLE_lt 4 m off

theorem get16_lt (m : Mem) (off : ℕ) : m.get16 off < 2 ^ 16 := readLE_lt 2 m off

@[simp] theorem get32_set32_self (m : Mem) (off v : ℕ) : (m.set32 off v).get32 off = v % 2 ^ 32 :=
  readLE_writeLE_self 4 m off v

@[simp] theorem get16_set16_self (m : Mem) (off v : ℕ) : (m.set16 off v).get16 off = v % 2 ^ 16 :=
  readLE_writeLE_self 2 m off v

theorem get32_set32_of_disjoint {m : Mem} {off off' v : ℕ} (h : off' + 4 ≤ off ∨ off + 4 ≤ off') :
    (m.set32 off v).get32 off' = m.get32 off' := readLE_writeLE_of_disjoint h

theorem get32_set16_of_disjoint {m : Mem} {off off' v : ℕ} (h : off' + 4 ≤ off ∨ off + 2 ≤ off') :
    (m.set16 off v).get32 off' = m.get32 off' := readLE_writeLE_of_disjoint h

theorem get16_set16_of_disjoint {m : Mem} {off off' v : ℕ} (h : off' + 2 ≤ off ∨ off + 2 ≤ off') :
    (m.set16 off v).get16 off' = m.get16 off' := readLE_writeLE_of_disjoint h

/-! ## Ranges -/

/-- `memcpy`: `len` bytes from `src[s]` on to `dst[d]` on. -/
def memcpy (dst : Mem) (d : ℕ) (src : Mem) (s len : ℕ) : Mem := fun i =>
  if d ≤ i ∧ i < d + len then src (s + (i - d)) else dst i

/-- `memset`: `len` bytes from `dst[d]` on become `v`. -/
def memset (dst : Mem) (d : ℕ) (v : BitVec 8) (len : ℕ) : Mem := fun i =>
  if d ≤ i ∧ i < d + len then v else dst i

/-! ## Bits -/

/-- Bit `j` of a memory read as an array of bits. -/
def testBit (m : Mem) (j : ℕ) : Bool := (m (j / 8)).getLsbD (j % 8)

def setBit (m : Mem) (j : ℕ) : Mem :=
  Function.update m (j / 8) (m (j / 8) ||| (1#8 <<< (j % 8)))

def clearBit (m : Mem) (j : ℕ) : Mem :=
  Function.update m (j / 8) (m (j / 8) &&& ~~~(1#8 <<< (j % 8)))

theorem testBit_setBit (m : Mem) (j i : ℕ) :
    (m.setBit j).testBit i = (m.testBit i || decide (i = j)) := by
  unfold testBit setBit
  by_cases h : i / 8 = j / 8
  · rw [h, Function.update_self, BitVec.getLsbD_or, BitVec.getLsbD_one_shiftLeft _ (by omega)]
    congr 2
    rw [eq_iff_iff]
    omega
  · have hij : i ≠ j := fun hij => h (hij ▸ rfl)
    rw [Function.update_of_ne h]
    simp [hij]

theorem testBit_clearBit (m : Mem) (j i : ℕ) :
    (m.clearBit j).testBit i = (m.testBit i && !decide (i = j)) := by
  unfold testBit clearBit
  by_cases h : i / 8 = j / 8
  · rw [h, Function.update_self, BitVec.getLsbD_and, BitVec.getLsbD_not,
      BitVec.getLsbD_one_shiftLeft _ (by omega)]
    have hlt : i % 8 < 8 := by omega
    have hiff : (i % 8 = j % 8) = (i = j) := by
      rw [eq_iff_iff]
      omega
    simp only [hlt, decide_true, Bool.true_and, hiff]
  · have hij : i ≠ j := fun hij => h (hij ▸ rfl)
    rw [Function.update_of_ne h]
    simp [hij]

theorem testBit_congr {m m' : Mem} {n : ℕ} (h : ∀ i < n, m i = m' i) {j : ℕ} (hj : j < 8 * n) :
    m.testBit j = m'.testBit j := by
  rw [testBit, testBit, h (j / 8) (by omega)]

end Mem

end Shaunos
