import Mathlib
import Shaunos.Mm.ArgEnv
import Shaunos.Mm.Buddy

/-!
# Orders from sizes

Reference: `Kernel/mm.c` (`mem_calc_order`, `get_order`), `Kernel/kthread.c` (`kproc_free_pages`),
`Include/kernel/page.h` (`PAGE_ALIGN`).

Both functions count how often a number of pages can be halved, which rounds down. `mem_calc_order` rounds the size up to
whole pages before that, so that it is right where it need not round again.

* `shiftLoop_eq` — the loop is a logarithm;
* `memCalcOrder_rightIff` — the sizes that a block of the order holds.
-/

namespace Shaunos.Mm

/-! ## The code -/

/-- `while (n >>= 1) order++;` -/
def shiftLoop (n : BitVec 32) (order : ℕ) : ℕ :=
  let n' := n >>> 1
  if _h : n' = 0 then order else shiftLoop n' (order + 1)
termination_by n.toNat
decreasing_by
  have hne : n.toNat / 2 ≠ 0 := fun hz =>
    _h (BitVec.eq_of_toNat_eq (by rw [BitVec.toNat_ushiftRight, Nat.shiftRight_one, hz]; rfl))
  rw [BitVec.toNat_ushiftRight, Nat.shiftRight_one]
  omega

def getOrder (size : BitVec 32) : ℕ := shiftLoop (size >>> pageShift) 0

def memCalcOrder (size : BitVec 32) : ℕ :=
  let s := pageAlign size
  let nrPgs := s >>> pageShift
  shiftLoop nrPgs 0

/-- `struct _vm` -/
structure Vm where
  base : BitVec 32
  len : BitVec 32

/-- `kproc_free_pages`: the entries that are freed, from the last one on, and the order for `free_pages`. -/
def kprocFreePages (vmPage : ℕ → Vm) (vmMax : ℕ) : List (Vm × ℕ) :=
  (((List.range vmMax).reverse.map fun i => vmPage (i + 1)).filter (fun vm => vm.base ≠ 0) ++ [vmPage 0]).map fun vm =>
    (vm, getOrder vm.len)

/-! ## What should happen -/

/-- The bytes of `2 ^ k` pages. -/
def blockSize (k : ℕ) : ℕ := 2 ^ k * pageSize

/-- A block of the order holds `s` bytes, and half of it does not. If `s` is a block of pages, both functions say
the same, and what was recorded with that length is freed so. -/
structure OrderRight (s : BitVec 32) : Prop where
  holds : s.toNat ≤ blockSize (memCalcOrder s)
  least : memCalcOrder s ≠ 0 → blockSize (memCalcOrder s - 1) < s.toNat
  agree : ∀ k, s.toNat = blockSize k → getOrder s = memCalcOrder s ∧
    ∀ vmPage vmMax, ∀ c ∈ kprocFreePages vmPage vmMax, c.1.len = s → c.2 = memCalcOrder s

/-- How many pages hold `s` bytes. -/
def pagesFor (s : ℕ) : ℕ := (s + (pageSize - 1)) / pageSize

section

variable {s : BitVec 32}

theorem shiftLoop_eq (n : BitVec 32) (order : ℕ) : shiftLoop n order = order + Nat.log 2 n.toNat := by
  induction n, order using shiftLoop.induct with
  | case1 n order n' h =>
      have hzero : n.toNat / 2 = 0 := by
        have hnat := congrArg BitVec.toNat h
        rwa [BitVec.toNat_ushiftRight, Nat.shiftRight_one] at hnat
      rw [shiftLoop, dif_pos h, Nat.log_of_lt (by omega), Nat.add_zero]
  | case2 n order n' h ih =>
      have hne : n.toNat / 2 ≠ 0 := fun hz =>
        h (BitVec.eq_of_toNat_eq (by rw [BitVec.toNat_ushiftRight, Nat.shiftRight_one, hz]; rfl))
      have hn' : n'.toNat = n.toNat / 2 := by rw [BitVec.toNat_ushiftRight, Nat.shiftRight_one]
      have hlog : Nat.log 2 n.toNat = Nat.log 2 (n.toNat / 2) + 1 :=
        Nat.log_of_one_lt_of_le Nat.one_lt_two (by omega)
      rw [shiftLoop, dif_neg h, ih, hn', hlog]
      omega

theorem getOrder_eq (s : BitVec 32) : getOrder s = Nat.log 2 (s.toNat / pageSize) := by
  rw [getOrder, shiftLoop_eq, Nat.zero_add, BitVec.toNat_ushiftRight, Nat.shiftRight_eq_div_pow]
  rfl

/-- Up to the last page, nothing is carried out of 32 bits. -/
theorem pageAlign_eq (hle : s.toNat ≤ 2 ^ 32 - pageSize) : (pageAlign s).toNat = pagesFor s.toNat * pageSize := by
  have hpage : pageSize = 4096 := rfl
  have hoff : (4095#32).toNat = 4095 := rfl
  rw [pageAlign, toNat_pageBase, BitVec.toNat_add, pagesFor, hoff, hpage]
  omega

theorem memCalcOrder_eq (hle : s.toNat ≤ 2 ^ 32 - pageSize) : memCalcOrder s = Nat.log 2 (pagesFor s.toNat) := by
  have hpos : 0 < pageSize := by decide
  rw [memCalcOrder, shiftLoop_eq, Nat.zero_add, BitVec.toNat_ushiftRight, pageAlign_eq hle,
    Nat.shiftRight_eq_div_pow]
  exact congrArg _ (Nat.mul_div_cancel _ hpos)

/-- For whole blocks, there is nothing to round. -/
theorem agree_of_block {k : ℕ} (hle : s.toNat ≤ 2 ^ 32 - pageSize) (h : s.toNat = blockSize k) :
    getOrder s = memCalcOrder s := by
  have hpos : 0 < pageSize := by decide
  have hpages : pagesFor s.toNat = 2 ^ k := by
    rw [pagesFor, h, blockSize, Nat.mul_comm, Nat.mul_add_div hpos, Nat.div_eq_of_lt (by omega), Nat.add_zero]
  rw [getOrder_eq, memCalcOrder_eq hle, hpages, h, blockSize, Nat.mul_div_cancel _ hpos]

theorem mem_kprocFreePages {vmPage : ℕ → Vm} {vmMax : ℕ} {c : Vm × ℕ} (h : c ∈ kprocFreePages vmPage vmMax) :
    c.2 = getOrder c.1.len := by
  obtain ⟨vm, -, rfl⟩ := List.mem_map.mp h
  rfl

theorem le_pagesFor_mul (n : ℕ) : n ≤ pagesFor n * pageSize := by
  have hpage : pageSize = 4096 := rfl
  rw [pagesFor, hpage]
  omega

theorem pagesFor_le_iff (n m : ℕ) : pagesFor n ≤ m ↔ n ≤ m * pageSize := by
  have hpage : pageSize = 4096 := rfl
  rw [pagesFor, hpage]
  omega

/-- The order is right for the sizes that need a power of two of pages. -/
theorem memCalcOrder_rightIff (s : BitVec 32) (hpos : 0 < s.toNat) (hle : s.toNat ≤ 2 ^ 32 - pageSize) :
    OrderRight s ↔ ∃ k, pagesFor s.toNat = 2 ^ k := by
  have hpages : pagesFor s.toNat ≠ 0 := by
    intro hz
    have hall := le_pagesFor_mul s.toNat
    rw [hz] at hall
    omega
  have horder := memCalcOrder_eq hle
  have hlow : 2 ^ memCalcOrder s ≤ pagesFor s.toNat := by
    rw [horder]
    exact Nat.pow_log_le_self 2 hpages
  constructor
  · intro h
    exact ⟨memCalcOrder s, le_antisymm ((pagesFor_le_iff _ _).mpr h.holds) hlow⟩
  · rintro ⟨k, hk⟩
    have hself : memCalcOrder s = k := by rw [horder, hk, Nat.log_pow Nat.one_lt_two]
    refine ⟨?_, fun hne => ?_, fun j hj => ?_⟩
    · rw [blockSize, hself, ← hk]
      exact le_pagesFor_mul _
    · have hhalf : 2 ^ (memCalcOrder s - 1) < pagesFor s.toNat :=
        (Nat.pow_lt_pow_right Nat.one_lt_two (Nat.sub_one_lt hne)).trans_le hlow
      rw [blockSize]
      exact Nat.lt_of_not_le fun hge => absurd ((pagesFor_le_iff _ _).mpr hge) (Nat.not_le.mpr hhalf)
    · have hagree := agree_of_block hle hj
      refine ⟨hagree, fun vmPage vmMax c hc hlen => ?_⟩
      rw [mem_kprocFreePages hc, hlen, hagree]

theorem memCalcOrder_rightIff_two :
    0 < (8192#32).toNat ∧ (8192#32).toNat ≤ 2 ^ 32 - pageSize ∧ OrderRight 8192#32 :=
  ⟨by decide, by decide, (memCalcOrder_rightIff 8192#32 (by decide) (by decide)).mpr ⟨1, by decide⟩⟩

/-- Three pages get an order of two. -/
theorem memCalcOrder_too_small : ¬ ∀ s : BitVec 32, 0 < s.toNat → s.toNat ≤ 2 ^ 32 - pageSize → OrderRight s := by
  intro h
  have hle : (12288#32).toNat ≤ 2 ^ 32 - pageSize := by decide
  have hholds := (h 12288#32 (by decide) hle).holds
  have hthree : pagesFor (12288#32).toNat = 3 := by decide
  rw [memCalcOrder_eq hle, hthree] at hholds
  exact absurd hholds (by decide)

end

end Shaunos.Mm
