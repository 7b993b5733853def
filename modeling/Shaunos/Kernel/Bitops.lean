import Shaunos.Common.FlipBit

/-!
# Bit operations on a 32-bit word

Reference: `Kernel/bitops.c`. The routines are one bit-test instruction each (`btsl`, `btrl`,
`btl`, `bsfl`) on the word at `addr`. Every caller modelled here passes a bit number below 32, so the word
is a `BitVec 32`; the old bit that `set_bit` and `clear_bit` return is read by nobody.
-/

namespace Shaunos.Bitops

/-- `set_bit(nr, addr)`: the word at `addr` with bit `nr` set. -/
def setBit (nr : ℕ) (w : BitVec 32) : BitVec 32 := w ||| (1#32 <<< nr)

/-- `clear_bit(nr, addr)`: the word at `addr` with bit `nr` cleared. -/
def clearBit (nr : ℕ) (w : BitVec 32) : BitVec 32 := w &&& ~~~(1#32 <<< nr)

/-- `get_bit(nr, addr)`. -/
def getBit (nr : ℕ) (w : BitVec 32) : Bool := w.getLsbD nr

/-- `find_first_bit`: the lowest set bit of the word (`bsfl`). The callers take the result for a zero
word to be -1. -/
def findFirstBit (w : BitVec 32) : Option ℕ := (List.range 32).find? fun nr => getBit nr w

theorem getBit_setBit {m : ℕ} (hm : m < 32) (n : ℕ) (w : BitVec 32) :
    getBit m (setBit n w) = (getBit m w || decide (m = n)) := by
  rw [getBit, setBit, BitVec.getLsbD_or, BitVec.getLsbD_one_shiftLeft n hm, getBit]

theorem getBit_clearBit {m : ℕ} (hm : m < 32) (n : ℕ) (w : BitVec 32) :
    getBit m (clearBit n w) = (getBit m w && !decide (m = n)) := by
  rw [getBit, clearBit, BitVec.getLsbD_and, BitVec.getLsbD_not,
    BitVec.getLsbD_one_shiftLeft n hm, getBit]
  simp [hm]

theorem findFirstBit_eq_some {w : BitVec 32} {nr : ℕ} (h : findFirstBit w = some nr) :
    nr < 32 ∧ getBit nr w = true := by
  unfold findFirstBit at h
  have hbit := List.find?_some h
  exact ⟨List.mem_range.mp (List.mem_of_find?_eq_some h), hbit⟩

end Shaunos.Bitops
