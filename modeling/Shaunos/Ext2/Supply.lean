import Mathlib
import Shaunos.Ext2.AllocRun

/-!
# Blocks kept in reserve

Reference: `Kernel/ext2.c` (`ext2_alloc_block`).

The functions that build files take blocks from `ext2_alloc_block` one after another and write blocks
in between. `Reserve` is what such a function needs to know of the volume: a set of blocks holds the
metadata and every free block, and enough free blocks are counted. A block that is taken leaves the
reserve, and blocks outside the reserve may be written. `Supply` is a reserve of empty blocks.

* `allocBlock_spec` — what an allocation does when it succeeds;
* `Reserve.alloc`, `Reserve.write`, `Supply.alloc`, `Supply.write` — the two steps.
-/

namespace Shaunos.Ext2

/-- The blocks that keep the volume together: the first block, the descriptors and the bitmaps. -/
def Metadata (fs : Fs) (w : World) (b : ℕ) : Prop :=
  b = 0 ∨ b = fs.firstBlockGroupNo ∨ ∃ k, ∃ g < fs.groupsCount, b = bitmapBlock k w.groupDesc g

/-- The number of blocks or inodes that the descriptors count as free. -/
def freeTotal (fs : Fs) (k : Kind) (w : World) : ℕ :=
  ∑ g ∈ Finset.range fs.groupsCount, freeNums k w.groupDesc g

/-- The blocks in `R` are the metadata and the free blocks of the volume, and `n` of them can be
allocated. -/
structure Reserve (fs : Fs) (blocksCnt : ℕ) (R : Set ℕ) (n : ℕ) (w : World) : Prop where
  numbers : Numbers fs blocksCnt
  inv : AllocInv fs blocksCnt ⟨w, []⟩
  inside : ∀ b ∈ R, b < blocksCnt
  metadata : ∀ b, Metadata fs w b → b ∈ R ∧ homeBit fs w b = true
  free : ∀ b < blocksCnt, homeBit fs w b = false → b ∈ R
  left : n ≤ freeTotal fs .block w

/-- A reserve in which the free blocks hold zeros. -/
structure Supply (fs : Fs) (blocksCnt : ℕ) (R : Set ℕ) (n : ℕ) (w : World) : Prop extends
    Reserve fs blocksCnt R n w where
  blank : ∀ b < blocksCnt, homeBit fs w b = false → ∀ i < fs.blksize, w.block fs b i = 0

section

variable {fs : Fs} {blocksCnt n : ℕ} {R S : Set ℕ} {w w' : World}

theorem Frame.metadata (h : Frame fs S w w') (b : ℕ) : Metadata fs w' b ↔ Metadata fs w b := by
  unfold Metadata
  simp only [h.bitmapBlock]

theorem exists_of_freeTotal_pos {k : Kind} (h : 0 < freeTotal fs k w) :
    ∃ g < fs.groupsCount, 0 < freeNums k w.groupDesc g := by
  obtain ⟨g, hg, hpos⟩ := Finset.exists_ne_zero_of_sum_ne_zero (Nat.ne_of_gt h)
  exact ⟨g, Finset.mem_range.mp hg, Nat.pos_of_ne_zero hpos⟩

/-- Counting down in one group counts down the sum. -/
theorem freeTotal_countDown {k : Kind} {g : ℕ} (hg : g < fs.groupsCount)
    (hpos : 0 < freeNums k w.groupDesc g) :
    freeTotal fs k (w.countDown k g) + 1 = freeTotal fs k w := by
  have hmem : g ∈ Finset.range fs.groupsCount := Finset.mem_range.mpr hg
  unfold freeTotal
  rw [← Finset.sum_erase_add _ _ hmem, ← Finset.sum_erase_add _ _ hmem, freeNums_countDown hpos,
    if_pos rfl]
  have hrest : ∑ x ∈ (Finset.range fs.groupsCount).erase g,
        freeNums k (w.countDown k g).groupDesc x
      = ∑ x ∈ (Finset.range fs.groupsCount).erase g, freeNums k w.groupDesc x := by
    apply Finset.sum_congr rfl
    intro x hx
    have hne : x ≠ g := Finset.ne_of_mem_erase hx
    rw [freeNums_countDown hpos, if_neg (by simp [hne]), Nat.sub_zero]
  omega

/-- **An allocation that succeeds** takes a free block of the volume: its bit is set, a counter goes
down, and the descriptors are on the disk. -/
theorem allocBlock_spec (hn : Numbers fs blocksCnt) (h : AllocInv fs blocksCnt ⟨w, []⟩)
    (hleft : 0 < freeTotal fs .block w) {b : ℕ} (halloc : allocBlock fs w = some (b, w'))
    (hne : b ≠ minusOne) :
    ∃ g < fs.groupsCount, ∃ j < 8 * fs.blksize, home fs b = (g, j) ∧ b < blocksCnt ∧
      bit fs w .block g j = false ∧ 0 < freeNums .block w.groupDesc g ∧
      Frame fs {bitmapBlock .block w.groupDesc g, fs.firstBlockGroupNo} w w' ∧
      w'.groupDesc = (w.countDown .block g).groupDesc ∧
      (∀ k', w'.total k' = (w.countDown .block g).total k') ∧ DescWritten fs w' ∧
      ∀ k', ∀ g' < fs.groupsCount, ∀ i < 8 * fs.blksize,
        bit fs w' k' g' i = (bit fs w k' g' i || decide ((k', g', i) = (.block, g, j))) := by
  obtain ⟨g₀, hg₀, hpos₀⟩ := exists_of_freeTotal_pos hleft
  unfold allocBlock at halloc
  split at halloc
  · rename_i hnone
    have hfalse := List.find?_eq_none.mp hnone g₀ (List.mem_range.mpr hg₀)
    exact absurd hpos₀ (by simpa using hfalse)
  rename_i g hgroup
  obtain ⟨hg, hpos⟩ := groupWithFree_eq_some hgroup
  obtain ⟨⟨r, w₁⟩, htake, halloc⟩ := Option.bind_eq_some_iff.mp halloc
  obtain ⟨hframe, hcases⟩ := takeBit_spec h.placed hg htake
  cases r with
  | none =>
      obtain ⟨rfl, -⟩ := Prod.mk.inj (Option.some.inj halloc)
      exact absurd rfl hne
  | some j =>
      obtain ⟨rfl, rfl⟩ := Prod.mk.inj (Option.some.inj halloc)
      obtain ⟨hnone, -⟩ | ⟨j', hj, hzero, hgd, htotal, ⟨hnone, -⟩ | ⟨hr, hbits⟩⟩ := hcases
      · exact absurd hnone (by simp)
      · exact absurd hnone (by simp)
      obtain ⟨heq, hdesc⟩ : some j = some j' ∧ _ := by simpa using hr
      obtain rfl := Option.some.inj heq
      obtain ⟨hjb, hlt⟩ := h.clear g hg j hj hzero
      have hbc := hn.blocksCnt_lt
      have hlt' : j + fs.blkPerGroup * g < blocksCnt := by
        rw [Nat.mul_comm fs.blkPerGroup]
        omega
      have hmod : (j + fs.blkPerGroup * g) % 2 ^ 32 = j + fs.blkPerGroup * g :=
        Nat.mod_eq_of_lt (by omega)
      rw [hmod]
      exact ⟨g, hg, j, hj, hn.home_of_bit hjb, hlt', hzero, hpos, hframe, hgd, htotal, hdesc, hbits⟩

/-- The bits that stand for blocks after an allocation. -/
theorem homeBit_alloc (hn : Numbers fs blocksCnt) {b g j : ℕ} (hhome : home fs b = (g, j))
    (hbits : ∀ k', ∀ g' < fs.groupsCount, ∀ i < 8 * fs.blksize,
      bit fs w' k' g' i = (bit fs w k' g' i || decide ((k', g', i) = (.block, g, j))))
    {c : ℕ} (hc : c < blocksCnt) : homeBit fs w' c = (homeBit fs w c || decide (c = b)) := by
  have hgroup := hn.group_lt hc
  rw [homeBit, homeBit, hn.home_eq c, hbits .block _ hgroup.1 _ hgroup.2]
  congr 2
  rw [eq_iff_iff, Prod.mk.injEq]
  constructor
  · rintro ⟨-, heq⟩
    apply hn.home_inj
    rw [hhome, hn.home_eq, heq]
  · rintro rfl
    rw [hn.home_eq] at hhome
    exact ⟨rfl, hhome⟩

/-- A block that is taken from the reserve does not belong to the metadata. -/
theorem Reserve.alloc (h : Reserve fs blocksCnt R (n + 1) w) {b : ℕ}
    (halloc : allocBlock fs w = some (b, w')) (hne : b ≠ minusOne) :
    b ∈ R ∧ ¬ Metadata fs w b ∧ Reserve fs blocksCnt (R \ {b}) n w' ∧
      homeBit fs w b = false ∧ (∀ c < blocksCnt, homeBit fs w' c = (homeBit fs w c || decide (c = b))) ∧
      Frame fs {c | Metadata fs w c} w w' := by
  have hn := h.numbers
  have hpos : 0 < freeTotal fs .block w := lt_of_lt_of_le (Nat.succ_pos n) h.left
  obtain ⟨g, hg, j, hj, hhome, hlt, hzero, hnums, hframe, hgd, -, -, hbits⟩ :=
    allocBlock_spec hn h.inv hpos halloc hne
  have hfree : homeBit fs w b = false := by
    rw [homeBit, hhome]
    exact hzero
  have hbR := h.free b hlt hfree
  have hmeta : ¬ Metadata fs w b := fun hm => by
    rw [(h.metadata b hm).2] at hfree
    exact absurd hfree (by simp)
  have hframe' : Frame fs {c | Metadata fs w c} w w' := by
    apply hframe.mono
    rintro c (rfl | rfl)
    · exact Or.inr (Or.inr ⟨.block, g, hg, rfl⟩)
    · exact Or.inr (Or.inl rfl)
  have hbit : ∀ c < blocksCnt, homeBit fs w' c = (homeBit fs w c || decide (c = b)) :=
    fun c hc => homeBit_alloc hn hhome hbits hc
  have hinv : AllocInv fs blocksCnt ⟨w', []⟩ := by
    have hleft := exists_of_freeTotal_pos hpos
    obtain ⟨b', w'', halloc', hinv, -⟩ := h.inv.alloc hn hleft
    rw [halloc] at halloc'
    obtain ⟨rfl, rfl⟩ := Prod.mk.inj (Option.some.inj halloc')
    exact ⟨hinv.placed, hinv.clear, hinv.nums, by simp, List.nodup_nil⟩
  refine ⟨hbR, hmeta, ⟨hn, hinv, fun c hc => h.inside c hc.1, fun c hc => ?_, fun c hc hc' => ?_, ?_⟩,
    hfree, hbit, hframe'⟩
  · rw [hframe.metadata] at hc
    obtain ⟨hcR, hset⟩ := h.metadata c hc
    refine ⟨⟨hcR, fun hcb => hmeta (hcb ▸ hc)⟩, ?_⟩
    rw [hbit c (h.inside c hcR), hset, Bool.true_or]
  · rw [hbit c hc, Bool.or_eq_false_iff] at hc'
    exact ⟨h.free c hc hc'.1, by simpa using hc'.2⟩
  · have hcount : freeTotal fs .block w' = freeTotal fs .block (w.countDown .block g) := by
      unfold freeTotal
      rw [hgd]
    have hdown := freeTotal_countDown hg hnums
    have hleft := h.left
    omega

/-- A block that is taken from the supply is empty. -/
theorem Supply.alloc (h : Supply fs blocksCnt R (n + 1) w) {b : ℕ}
    (halloc : allocBlock fs w = some (b, w')) (hne : b ≠ minusOne) :
    b ∈ R ∧ ¬ Metadata fs w b ∧ Supply fs blocksCnt (R \ {b}) n w' ∧
      (∀ i < fs.blksize, w'.block fs b i = 0) ∧ Frame fs {c | Metadata fs w c} w w' := by
  obtain ⟨hbR, hmeta, hres, hfree, hbit, hframe⟩ := h.toReserve.alloc halloc hne
  -- free blocks are not metadata, and so they are not written
  have hblank : ∀ c < blocksCnt, homeBit fs w c = false → ∀ i < fs.blksize,
      w'.block fs c i = 0 := by
    intro c hc hz i hi
    rw [hframe.block c (h.numbers.addressable hc) (fun hm => ?_) i hi]
    · exact h.blank c hc hz i hi
    · rw [(h.metadata c hm).2] at hz
      exact absurd hz (by simp)
  refine ⟨hbR, hmeta, ⟨hres, fun c hc hz => ?_⟩, hblank b (h.inside b hbR) hfree, hframe⟩
  rw [hbit c hc, Bool.or_eq_false_iff] at hz
  exact hblank c hc hz.1

/-- Writing blocks outside the reserve keeps it. -/
theorem Reserve.write (h : Reserve fs blocksCnt R n w) (hframe : Frame fs S w w')
    (hgd : w'.groupDesc = w.groupDesc) (hS : Disjoint S {b | Metadata fs w b}) :
    Reserve fs blocksCnt R n w' ∧ ∀ b < blocksCnt, homeBit fs w' b = homeBit fs w b := by
  have hn := h.numbers
  have hplaced : Placed fs w := h.inv.placed
  have hbits : ∀ k, ∀ g < fs.groupsCount, ∀ j < 8 * fs.blksize,
      bit fs w' k g j = bit fs w k g j := fun k g hg j hj =>
    hframe.bit hplaced hg
      (fun hmem => Set.disjoint_left.mp hS hmem (Or.inr (Or.inr ⟨k, g, hg, rfl⟩))) hj
  have hhome : ∀ b < blocksCnt, homeBit fs w' b = homeBit fs w b := by
    intro b hb
    rw [homeBit, homeBit, hn.home_eq]
    exact hbits .block _ (hn.group_lt hb).1 _ (hn.group_lt hb).2
  refine ⟨⟨hn, ⟨hframe.placed hplaced, fun g hg j hj hz => ?_, fun g hg => ?_, by simp,
    List.nodup_nil⟩, h.inside, fun b hb => ?_, fun b hb hz => ?_, ?_⟩, hhome⟩
  · rw [hbits .block g hg j hj] at hz
    exact h.inv.clear g hg j hj hz
  · have hold : freeNums .block w.groupDesc g ≤ zeros fs w .block g := h.inv.nums g hg
    simp only
    rw [hgd, zeros_congr (hbits .block g hg)]
    exact hold
  · rw [hframe.metadata] at hb
    obtain ⟨hbR, hset⟩ := h.metadata b hb
    rw [hhome b (h.inside b hbR)]
    exact ⟨hbR, hset⟩
  · rw [hhome b hb] at hz
    exact h.free b hb hz
  · unfold freeTotal
    rw [hgd]
    exact h.left

theorem Supply.write (h : Supply fs blocksCnt R n w) (hframe : Frame fs S w w')
    (hgd : w'.groupDesc = w.groupDesc) (hS : Disjoint S R) : Supply fs blocksCnt R n w' := by
  have hmeta : Disjoint S {b | Metadata fs w b} :=
    hS.mono_right fun b hb => (h.metadata b hb).1
  obtain ⟨hres, hhome⟩ := h.toReserve.write hframe hgd hmeta
  refine ⟨hres, fun b hb hz i hi => ?_⟩
  rw [hhome b hb] at hz
  have hbS : b ∉ S := fun hmem => Set.disjoint_left.mp hS hmem (h.free b hb hz)
  exact (hframe.block b (h.numbers.addressable hb) hbS i hi).trans (h.blank b hb hz i hi)

theorem Reserve.addressable (h : Reserve fs blocksCnt R n w) {b : ℕ} (hb : b ∈ R) :
    fs.Addressable b := h.numbers.addressable (h.inside b hb)

/-- The number of a block fits in 32 bits. -/
theorem Reserve.mod_eq (h : Reserve fs blocksCnt R n w) {b : ℕ} (hb : b ∈ R) : b % 2 ^ 32 = b := by
  have hlt := h.numbers.blocksCnt_lt
  have hb' := h.inside b hb
  exact Nat.mod_eq_of_lt (by omega)

theorem Reserve.metadata_subset (h : Reserve fs blocksCnt R n w) : {b | Metadata fs w b} ⊆ R :=
  fun b hb => (h.metadata b hb).1

theorem Supply.mono {m : ℕ} (h : Supply fs blocksCnt R n w) (hm : m ≤ n) :
    Supply fs blocksCnt R m w := { h with left := hm.trans h.left }

end

end Shaunos.Ext2
