import Shaunos.Common.Run
import Shaunos.Ext2.Alloc

/-!
# Runs of `ext2_alloc_block` and `ext2_free_block`

Reference: `Kernel/ext2.c`.

Block `b` of a volume has its bit at `(b - s_first_data_block) / s_blocks_per_group`,
`(b - s_first_data_block) % s_blocks_per_group`. `ext2_alloc_block` forgets to add the first data
block to the number it returns, and `ext2_free_block` subtracts it in one of two places, so the two
agree with the volume and with each other when the first data block is 0.

* `alloc_free_agree` — on such volumes, along every run, an allocated block is a block of the volume
  that was free and in nobody's hands, and freeing it clears its bit and no other;
* `alloc_free_can_disagree` — with the first data block 1, the block that is returned is in use.
-/

namespace Shaunos.Ext2

/-! ## Volumes and runs -/

/-- The group and the bit that stand for a block. -/
def home (fs : Fs) (b : ℕ) : ℕ × ℕ :=
  ((b - fs.firstDataBlock) / fs.blkPerGroup, (b - fs.firstDataBlock) % fs.blkPerGroup)

/-- The bit that stands for a block. -/
def homeBit (fs : Fs) (w : World) (b : ℕ) : Bool := bit fs w .block (home fs b).1 (home fs b).2

/-- The number of clear bits of a bitmap. -/
def zeros (fs : Fs) (w : World) (k : Kind) (g : ℕ) : ℕ :=
  countBelow (8 * fs.blksize) fun j => bit fs w k g j = false

/-- A volume of `blocksCnt` blocks as it is found on disk: clear bits stand for blocks of the volume
(the padding of a bitmap is set), the descriptors count them, and the metadata lies inside the
volume. The numbers are those that `ext2_mount` computes from the superblock. -/
structure Consistent (fs : Fs) (blocksCnt : ℕ) (w : World) : Prop where
  sized : fs.Sized
  firstDataBlock : fs.firstDataBlock ≤ 1 ∧ fs.firstDataBlock < blocksCnt
  blkPerGroup : 0 < fs.blkPerGroup ∧ fs.blkPerGroup ≤ 8 * fs.blksize
  groupsCount : fs.groupsCount = (blocksCnt + fs.firstDataBlock - 1) / fs.blkPerGroup + 1
  gdt : fs.firstBlockGroupNo = fs.firstDataBlock + 1 ∧ fs.firstBlockGroupNo < blocksCnt
  bitmap : ∀ k, ∀ g < fs.groupsCount, bitmapBlock k w.groupDesc g < blocksCnt ∧
    bitmapBlock k w.groupDesc g ≠ fs.firstBlockGroupNo
  distinct : ∀ k, ∀ g < fs.groupsCount, ∀ k', ∀ g' < fs.groupsCount, (k, g) ≠ (k', g') →
    bitmapBlock k w.groupDesc g ≠ bitmapBlock k' w.groupDesc g'
  clear : ∀ g < fs.groupsCount, ∀ j < 8 * fs.blksize, bit fs w .block g j = false →
    j < fs.blkPerGroup ∧ fs.firstDataBlock + g * fs.blkPerGroup + j < blocksCnt
  nums : ∀ g < fs.groupsCount, freeNums .block w.groupDesc g = zeros fs w .block g

/-- Where the two functions agree with the volume: its blocks are numbered from 0, it can be reached
with 32-bit byte addresses, and the length of the descriptor table, which was never assigned, does
not make its write run into other blocks. -/
structure Sound (fs : Fs) (blocksCnt : ℕ) : Prop where
  firstDataBlock : fs.firstDataBlock = 0
  size : blocksCnt * fs.blksize ≤ 2 ^ 32
  table : 512 * max 1 (fs.blockGroupDescTableSize / 512) ≤ fs.blksize ∨
    128 < max 1 (fs.blockGroupDescTableSize / 512)

/-- The volume and the blocks in use. -/
structure AllocSys where
  w : World
  live : List ℕ

/-- What happens to it. -/
inductive AllocCall where
  | alloc
  | free (b : ℕ)
  /-- Sectors of the device go bad or recover. -/
  | health (badRead badWrite : ℕ → Bool)

/-- One call. A block is freed by its user only. -/
def AllocSys.call (fs : Fs) (σ : AllocSys) : AllocCall → Option AllocSys
  | .alloc => do
      let (b, w) ← allocBlock fs σ.w
      return ⟨w, if b = minusOne then σ.live else b :: σ.live⟩
  | .free b => if b ∈ σ.live then some ⟨(freeBlock fs σ.w b).2, σ.live.erase b⟩ else none
  | .health badRead badWrite => some ⟨{ σ.w with badRead, badWrite }, σ.live⟩

/-- A block is asked for only while some group counts a free one. -/
def BlockLeft (fs : Fs) (σ : AllocSys) : AllocCall → Prop
  | .alloc => ∃ g < fs.groupsCount, 0 < freeNums .block σ.w.groupDesc g
  | _ => True

/-! ## The invariant -/

/-- The invariant of runs. -/
structure AllocInv (fs : Fs) (blocksCnt : ℕ) (σ : AllocSys) : Prop where
  placed : Placed fs σ.w
  clear : ∀ g < fs.groupsCount, ∀ j < 8 * fs.blksize, bit fs σ.w .block g j = false →
    j < fs.blkPerGroup ∧ g * fs.blkPerGroup + j < blocksCnt
  nums : ∀ g < fs.groupsCount, freeNums .block σ.w.groupDesc g ≤ zeros fs σ.w .block g
  live : ∀ b ∈ σ.live, b < blocksCnt ∧ homeBit fs σ.w b = true
  nodup : σ.live.Nodup

section

variable {fs : Fs} {blocksCnt : ℕ} {w w' : World} {live : List ℕ} {σ : AllocSys}

/-- The numbers of a sound volume. -/
structure Numbers (fs : Fs) (blocksCnt : ℕ) : Prop extends Sound fs blocksCnt where
  sized : fs.Sized
  pos : 0 < blocksCnt
  blkPerGroup : 0 < fs.blkPerGroup ∧ fs.blkPerGroup ≤ 8 * fs.blksize
  groupsCount : fs.groupsCount = (blocksCnt - 1) / fs.blkPerGroup + 1

theorem Consistent.numbers (h : Consistent fs blocksCnt w) (hs : Sound fs blocksCnt) :
    Numbers fs blocksCnt := by
  refine ⟨hs, h.sized, by have := h.firstDataBlock; omega, h.blkPerGroup, ?_⟩
  rw [h.groupsCount, hs.firstDataBlock]
  rfl

theorem Numbers.blocksCnt_lt (h : Numbers fs blocksCnt) : blocksCnt < 2 ^ 31 := by
  have hsize := h.size
  have hpos := h.sized.pos
  have hmul : blocksCnt * 1024 ≤ blocksCnt * fs.blksize := Nat.mul_le_mul_left _ hpos
  omega

theorem Numbers.addressable (h : Numbers fs blocksCnt) {b : ℕ} (hb : b < blocksCnt) :
    fs.Addressable b := by
  unfold Fs.Addressable
  have hpos := h.sized.pos
  calc b * fs.blksize < blocksCnt * fs.blksize := Nat.mul_lt_mul_of_pos_right hb (by omega)
    _ ≤ 2 ^ 32 := h.size

theorem Numbers.home_eq (h : Numbers fs blocksCnt) (b : ℕ) :
    home fs b = (b / fs.blkPerGroup, b % fs.blkPerGroup) := by
  rw [home, h.firstDataBlock, Nat.sub_zero]

/-- A block of the volume has its bit in one of the groups. -/
theorem Numbers.group_lt (h : Numbers fs blocksCnt) {b : ℕ} (hb : b < blocksCnt) :
    b / fs.blkPerGroup < fs.groupsCount ∧ b % fs.blkPerGroup < 8 * fs.blksize := by
  have hle : b / fs.blkPerGroup ≤ (blocksCnt - 1) / fs.blkPerGroup :=
    Nat.div_le_div_right (by omega)
  have hmod := Nat.mod_lt b h.blkPerGroup.1
  have hgroups := h.groupsCount
  have hbpg := h.blkPerGroup.2
  omega

/-- The number that `ext2_alloc_block` computes for a bit stands for that bit. -/
theorem Numbers.home_of_bit (h : Numbers fs blocksCnt) {g j : ℕ} (hj : j < fs.blkPerGroup) :
    home fs (j + fs.blkPerGroup * g) = (g, j) := by
  have hpos := h.blkPerGroup.1
  rw [h.home_eq, Nat.add_mul_div_left _ _ hpos, Nat.add_mul_mod_self_left, Nat.div_eq_of_lt hj,
    Nat.mod_eq_of_lt hj, Nat.zero_add]

/-- Different blocks have different bits. -/
theorem Numbers.home_inj (h : Numbers fs blocksCnt) {b b' : ℕ} (hbb : home fs b = home fs b') :
    b = b' := by
  rw [h.home_eq, h.home_eq] at hbb
  obtain ⟨h₁, h₂⟩ := Prod.mk.inj hbb
  rw [← Nat.div_add_mod b fs.blkPerGroup, ← Nat.div_add_mod b' fs.blkPerGroup, h₁, h₂]

/-- `ext2_free_block` computes the home of a block. -/
theorem Numbers.freeBlock_eq (h : Numbers fs blocksCnt) {b : ℕ} (hb : b < blocksCnt) :
    freeBlock fs w b = giveBit fs .block w (home fs b).1 (home fs b).2 := by
  have hlt := h.blocksCnt_lt
  have hgroup : freeGroup fs b = b / fs.blkPerGroup := by
    rw [freeGroup, h.firstDataBlock, Nat.sub_zero, Nat.add_mod_right, Nat.mod_eq_of_lt (by omega)]
  have hle : b / fs.blkPerGroup * fs.blkPerGroup ≤ b := Nat.div_mul_le_self _ _
  have hmod : b % fs.blkPerGroup = b - b / fs.blkPerGroup * fs.blkPerGroup := by
    have := Nat.div_add_mod b fs.blkPerGroup
    rw [Nat.mul_comm] at this
    omega
  rw [freeBlock, hgroup, h.home_eq]
  simp only
  congr 1
  omega

/-- Setting a clear bit takes one from the clear bits. -/
theorem zeros_set {k : Kind} {g j : ℕ} (hg : g < fs.groupsCount) (hj : j < 8 * fs.blksize)
    (hclear : bit fs w k g j = false)
    (hbits : ∀ k', ∀ g' < fs.groupsCount, ∀ i < 8 * fs.blksize,
      bit fs w' k' g' i = (bit fs w k' g' i || decide ((k', g', i) = (k, g, j)))) :
    zeros fs w' k g + 1 = zeros fs w k g := by
  have hchange := countBelow_change (n := 8 * fs.blksize) (p := fun i => bit fs w k g i = false)
    (q := fun i => bit fs w' k g i = false) hj fun i hi hij => by
      rw [hbits k g hg i hi]
      simp [hij]
  have hset : ¬ bit fs w' k g j = false := by
    rw [hbits k g hg j hj]
    simp
  rw [if_pos hclear, if_neg hset] at hchange
  exact hchange

/-- Clearing a set bit adds one to the clear bits. -/
theorem zeros_clear {k : Kind} {g j : ℕ} (hg : g < fs.groupsCount) (hj : j < 8 * fs.blksize)
    (hset : bit fs w k g j = true)
    (hbits : ∀ k', ∀ g' < fs.groupsCount, ∀ i < 8 * fs.blksize,
      bit fs w' k' g' i = (bit fs w k' g' i && !decide ((k', g', i) = (k, g, j)))) :
    zeros fs w' k g = zeros fs w k g + 1 := by
  have hchange := countBelow_change (n := 8 * fs.blksize) (p := fun i => bit fs w k g i = false)
    (q := fun i => bit fs w' k g i = false) hj fun i hi hij => by
      rw [hbits k g hg i hi]
      simp [hij]
  have hclear : bit fs w' k g j = false := by
    rw [hbits k g hg j hj]
    simp
  rw [if_neg (by simp [hset]), if_pos hclear, Nat.add_zero] at hchange
  exact hchange

/-- Bits that stay the same have the same number of clear ones. -/
theorem zeros_congr {k : Kind} {g : ℕ}
    (hbits : ∀ i < 8 * fs.blksize, bit fs w' k g i = bit fs w k g i) :
    zeros fs w' k g = zeros fs w k g :=
  countBelow_congr fun i hi => by rw [hbits i hi]

/-- `takeBit` returns when the bitmap has a clear bit. -/
theorem takeBit_returns {k : Kind} {g : ℕ} (hs : fs.Sized) (hz : 0 < zeros fs w k g) :
    ∃ r w', takeBit fs k w g = some (r, w') := by
  obtain ⟨j, hj, hclear⟩ := countBelow_pos_iff.mp hz
  unfold takeBit
  simp only
  split
  · exact ⟨_, _, rfl⟩
  · rename_i buf hread
    have hbuf : buf.testBit j = false := (testBit_rwBlockRead hs hread hj).trans hclear
    have hscan : (firstZeroBit buf (8 * fs.blksize) 0).isSome = true :=
      firstZeroBit_isSome (Nat.zero_le j) (by omega) hbuf
    obtain ⟨offset, hoffset⟩ := Option.isSome_iff_exists.mp hscan
    simp only [hoffset, Option.bind_eq_bind, Option.bind_some]
    split
    · exact ⟨_, _, rfl⟩
    · split
      · exact ⟨_, _, rfl⟩
      · exact ⟨_, _, rfl⟩

theorem groupWithFree_eq_some {k : Kind} {g : ℕ} (h : groupWithFree fs k w = some g) :
    g < fs.groupsCount ∧ 0 < freeNums k w.groupDesc g := by
  have hp := List.find?_some h
  have hm := List.mem_of_find?_eq_some h
  exact ⟨List.mem_range.mp hm, by simpa using hp⟩

/-- Counting down a counter that is not zero. -/
theorem freeNums_countDown {k : Kind} {g : ℕ} (hpos : 0 < freeNums k w.groupDesc g) (k' : Kind)
    (g' : ℕ) : freeNums k' (w.countDown k g).groupDesc g'
      = freeNums k' w.groupDesc g' - if (k', g') = (k, g) then 1 else 0 := by
  have hlt : freeNums k w.groupDesc g < 2 ^ 16 := Mem.get16_lt _ _
  rw [World.countDown, freeNums_setNums]
  split
  · rename_i heq
    obtain ⟨rfl, rfl⟩ := Prod.mk.inj heq
    omega
  · rw [Nat.sub_zero]

/-- The counters still do not exceed the clear bits after `takeBit`. -/
theorem AllocInv.nums_take {g : ℕ} {r : Option ℕ} (h : AllocInv fs blocksCnt ⟨w, live⟩)
    (hg : g < fs.groupsCount) (hpos : 0 < freeNums .block w.groupDesc g)
    (htake : takeBit fs .block w g = some (r, w')) :
    ∀ g' < fs.groupsCount, freeNums .block w'.groupDesc g' ≤ zeros fs w' .block g' := by
  have hplaced : Placed fs w := h.placed
  obtain ⟨-, ⟨-, rfl⟩ | ⟨j, hj, hclear, hgd, -, hbits⟩⟩ := takeBit_spec hplaced hg htake
  · exact h.nums
  intro g' hg'
  have hold : freeNums .block w.groupDesc g' ≤ zeros fs w .block g' := h.nums g' hg'
  rw [hgd, freeNums_countDown hpos]
  rcases hbits with ⟨-, hbits⟩ | ⟨-, hbits⟩
  · rw [zeros_congr (hbits .block g' hg')]
    exact (Nat.sub_le _ _).trans hold
  · by_cases hgg : g' = g
    · subst hgg
      have hzeros := zeros_set hg hj hclear hbits
      rw [if_pos rfl]
      omega
    · rw [if_neg (by simp [hgg]), Nat.sub_zero, zeros_congr (w := w) fun i hi => by
        rw [hbits .block g' hg' i hi]
        simp [hgg]]
      exact hold

/-- An allocation returns, keeps the invariant, and hands out a block that was free. -/
theorem AllocInv.alloc (hn : Numbers fs blocksCnt) (h : AllocInv fs blocksCnt ⟨w, live⟩)
    (hleft : ∃ g < fs.groupsCount, 0 < freeNums .block w.groupDesc g) :
    ∃ b w', allocBlock fs w = some (b, w') ∧
      AllocInv fs blocksCnt ⟨w', if b = minusOne then live else b :: live⟩ ∧
      (b ≠ minusOne → b < blocksCnt ∧ homeBit fs w b = false ∧ homeBit fs w' b = true ∧
        b ∉ live) := by
  -- the group
  obtain ⟨g₀, hg₀, hpos₀⟩ := hleft
  have hsome : (groupWithFree fs .block w).isSome = true := by
    rw [groupWithFree, List.find?_isSome]
    exact ⟨g₀, List.mem_range.mpr hg₀, by simpa using hpos₀⟩
  obtain ⟨g, hgroup⟩ := Option.isSome_iff_exists.mp hsome
  obtain ⟨hg, hpos⟩ := groupWithFree_eq_some hgroup
  obtain ⟨r, w', htake⟩ : ∃ r w', takeBit fs .block w g = some (r, w') :=
    takeBit_returns hn.sized (lt_of_lt_of_le hpos (h.nums g hg))
  have hnums := h.nums_take hg hpos htake
  have hplaced₀ : Placed fs w := h.placed
  obtain ⟨hframe, hcases⟩ := takeBit_spec hplaced₀ hg htake
  have hplaced := hframe.placed hplaced₀
  -- bits are set only
  have hmono : ∀ g' < fs.groupsCount, ∀ i < 8 * fs.blksize, bit fs w .block g' i = true →
      bit fs w' .block g' i = true := by
    intro g' hg' i hi hset
    obtain ⟨-, rfl⟩ | ⟨j, -, -, -, -, ⟨-, hbits⟩ | ⟨-, hbits⟩⟩ := hcases
    · exact hset
    · rw [hbits .block g' hg' i hi, hset]
    · rw [hbits .block g' hg' i hi, hset, Bool.true_or]
  have hclear : ∀ g' < fs.groupsCount, ∀ i < 8 * fs.blksize, bit fs w' .block g' i = false →
      i < fs.blkPerGroup ∧ g' * fs.blkPerGroup + i < blocksCnt := by
    intro g' hg' i hi hfalse
    apply h.clear g' hg' i hi
    by_contra hne
    rw [hmono g' hg' i hi (by simpa using hne)] at hfalse
    exact absurd hfalse (by simp)
  have hlive : ∀ b ∈ live, b < blocksCnt ∧ homeBit fs w' b = true := by
    intro b hb
    obtain ⟨hlt, hset⟩ := h.live b hb
    refine ⟨hlt, ?_⟩
    rw [homeBit, hn.home_eq] at hset ⊢
    exact hmono _ (hn.group_lt hlt).1 _ (hn.group_lt hlt).2 hset
  cases r with
  | none =>
      refine ⟨minusOne, w', by simp [allocBlock, hgroup, htake], ?_, fun hne => absurd rfl hne⟩
      rw [if_pos rfl]
      exact ⟨hplaced, hclear, hnums, hlive, h.nodup⟩
  | some j =>
      obtain ⟨hnone, -⟩ | ⟨j', hj', hzero, -, -, ⟨hnone, -⟩ | ⟨hr, hbits⟩⟩ := hcases
      · exact absurd hnone (by simp)
      · exact absurd hnone (by simp)
      obtain ⟨heq, -⟩ : some j = some j' ∧ _ := by simpa using hr
      obtain rfl := Option.some.inj heq
      obtain ⟨hjb, hblock⟩ := h.clear g hg j hj' hzero
      have hhome : home fs (j + fs.blkPerGroup * g) = (g, j) := hn.home_of_bit hjb
      have hblock' : j + fs.blkPerGroup * g < blocksCnt := by
        rw [Nat.mul_comm fs.blkPerGroup]
        omega
      have hbc := hn.blocksCnt_lt
      have hmod : (j + fs.blkPerGroup * g) % 2 ^ 32 = j + fs.blkPerGroup * g :=
        Nat.mod_eq_of_lt (by omega)
      have hne : j + fs.blkPerGroup * g ≠ minusOne := by
        unfold minusOne
        omega
      have hbefore : homeBit fs w (j + fs.blkPerGroup * g) = false := by
        rw [homeBit, hhome]
        exact hzero
      have hafter : homeBit fs w' (j + fs.blkPerGroup * g) = true := by
        rw [homeBit, hhome, hbits .block g hg j hj']
        simp
      have hfresh : j + fs.blkPerGroup * g ∉ live := fun hmem => by
        rw [(h.live _ hmem).2] at hbefore
        exact absurd hbefore (by simp)
      have hcall : allocBlock fs w = some (j + fs.blkPerGroup * g, w') := by
        simp only [allocBlock, hgroup, htake, Option.bind_eq_bind, Option.bind_some, hmod]
        rfl
      refine ⟨j + fs.blkPerGroup * g, w', hcall, ?_, fun _ => ⟨hblock', hbefore, hafter, hfresh⟩⟩
      rw [if_neg hne]
      refine ⟨hplaced, hclear, hnums, fun b hb => ?_, List.nodup_cons.mpr ⟨hfresh, h.nodup⟩⟩
      rcases List.mem_cons.mp hb with rfl | hb
      · exact ⟨hblock', hafter⟩
      · exact hlive b hb

/-- What freeing a block does to the bits, when it succeeds. -/
theorem AllocInv.free_bits (hn : Numbers fs blocksCnt) (h : AllocInv fs blocksCnt ⟨w, live⟩) {b : ℕ}
    (hb : b ∈ live) (hfree : freeBlock fs w b = (true, w')) :
    ∀ g < fs.groupsCount, ∀ j < 8 * fs.blksize,
      bit fs w' .block g j = (bit fs w .block g j && !decide ((g, j) = home fs b)) := by
  have hlt := (h.live b hb).1
  rw [hn.freeBlock_eq hlt] at hfree
  have hg : (home fs b).1 < fs.groupsCount := by
    rw [hn.home_eq]
    exact (hn.group_lt hlt).1
  obtain ⟨-, ⟨hno, -⟩ | ⟨-, -, -, hbits⟩⟩ := giveBit_spec h.placed hg hfree
  · exact absurd hno (by simp)
  intro g hg j hj
  rw [hbits .block g hg j hj]
  simp

/-- A free keeps the invariant. -/
theorem AllocInv.free (hn : Numbers fs blocksCnt) (h : AllocInv fs blocksCnt ⟨w, live⟩) {b : ℕ}
    (hb : b ∈ live) : AllocInv fs blocksCnt ⟨(freeBlock fs w b).2, live.erase b⟩ := by
  obtain ⟨hlt, hset⟩ := h.live b hb
  obtain ⟨hg, hj⟩ := hn.group_lt hlt
  have hhome := hn.home_eq b
  rw [homeBit, hhome] at hset
  have hrest : ∀ b' ∈ live.erase b, b' ∈ live ∧ b' ≠ b := fun b' hb' =>
    ⟨List.mem_of_mem_erase hb', ((h.nodup.mem_erase_iff).mp hb').1⟩
  rw [hn.freeBlock_eq hlt, hhome]
  simp only at hset ⊢
  have hplaced : Placed fs w := h.placed
  obtain ⟨hframe, hcases⟩ := giveBit_spec (k := .block) (j := b % fs.blkPerGroup) hplaced hg
    Prod.mk.eta.symm
  set w' := (giveBit fs .block w (b / fs.blkPerGroup) (b % fs.blkPerGroup)).2 with hw'
  obtain ⟨-, hsame⟩ | ⟨hgd, -, -, hbits⟩ := hcases
  · -- nothing happened
    rw [hsame]
    exact ⟨h.placed, h.clear, h.nums, fun b' hb' => h.live b' (hrest b' hb').1, h.nodup.erase b⟩
  refine ⟨hframe.placed hplaced, ?clear, ?nums, ?live, h.nodup.erase b⟩
  case clear =>
    intro g hg' i hi hfalse
    rw [hbits .block g hg' i hi, Bool.and_eq_false_iff] at hfalse
    rcases hfalse with hfalse | heq
    · exact h.clear g hg' i hi hfalse
    · simp only [Bool.not_eq_eq_eq_not, Bool.not_false, decide_eq_true_eq, Prod.mk.injEq,
        true_and] at heq
      obtain ⟨rfl, rfl⟩ := heq
      refine ⟨Nat.mod_lt _ hn.blkPerGroup.1, ?_⟩
      rw [Nat.mul_comm, Nat.div_add_mod]
      exact hlt
  case nums =>
    intro g hg'
    have hold : freeNums .block w.groupDesc g ≤ zeros fs w .block g := h.nums g hg'
    simp only
    rw [hgd, World.countUp, freeNums_setNums]
    by_cases hgg : g = b / fs.blkPerGroup
    · subst hgg
      rw [if_pos rfl, zeros_clear hg hj hset hbits]
      exact (Nat.mod_le _ _).trans (by omega)
    · rw [if_neg (by simp [hgg]), zeros_congr (w := w) fun i hi => by
        rw [hbits .block g hg' i hi]
        simp [hgg]]
      exact hold
  case live =>
    intro b' hb'
    obtain ⟨hmem, hne⟩ := hrest b' hb'
    obtain ⟨hlt', hset'⟩ := h.live b' hmem
    refine ⟨hlt', ?_⟩
    rw [homeBit, hn.home_eq] at hset' ⊢
    rw [hbits .block _ (hn.group_lt hlt').1 _ (hn.group_lt hlt').2, hset']
    have hhome' : (b' / fs.blkPerGroup, b' % fs.blkPerGroup)
        ≠ (b / fs.blkPerGroup, b % fs.blkPerGroup) := by
      rw [← hn.home_eq, ← hn.home_eq]
      exact fun heq => hne (hn.home_inj heq)
    simp only [ne_eq, Prod.mk.injEq] at hhome'
    simp [hhome']

/-- One call keeps the invariant. -/
theorem AllocInv.call (hn : Numbers fs blocksCnt) {τ : AllocSys} {c : AllocCall}
    (h : AllocInv fs blocksCnt σ) (hok : BlockLeft fs σ c) (hcall : σ.call fs c = some τ) :
    AllocInv fs blocksCnt τ := by
  cases c with
  | alloc =>
      obtain ⟨b, w', halloc, hinv, -⟩ := h.alloc hn hok
      simp only [AllocSys.call, halloc] at hcall
      obtain rfl := Option.some.inj hcall
      exact hinv
  | free b =>
      simp only [AllocSys.call] at hcall
      split at hcall
      · rename_i hb
        obtain rfl := Option.some.inj hcall
        exact h.free hn hb
      · exact absurd hcall (by simp)
  | health badRead badWrite =>
      obtain rfl := Option.some.inj hcall
      exact ⟨⟨h.placed.sized, h.placed.gdt, h.placed.table, h.placed.bitmap, h.placed.distinct⟩,
        h.clear, h.nums, h.live, h.nodup⟩

/-- A consistent volume meets the invariant, with any of its blocks in use. -/
theorem Consistent.allocInv (h : Consistent fs blocksCnt w) (hs : Sound fs blocksCnt)
    (hlive : ∀ b ∈ live, b < blocksCnt ∧ homeBit fs w b = true) (hnodup : live.Nodup) :
    AllocInv fs blocksCnt ⟨w, live⟩ := by
  have hn := h.numbers hs
  refine ⟨⟨h.sized, hn.addressable h.gdt.2, hs.table, fun k g hg => ?_, h.distinct⟩,
    fun g hg j hj hclear => ?_, fun g hg => (h.nums g hg).le, hlive, hnodup⟩
  · exact ⟨hn.addressable (h.bitmap k g hg).1, (h.bitmap k g hg).2⟩
  · have hblock := h.clear g hg j hj hclear
    rw [hs.firstDataBlock] at hblock
    exact ⟨hblock.1, by omega⟩

/-! ## Main results -/

/-- **Allocation and release agree on sound volumes.** Along every run, an allocation returns a block
of the volume whose bit was clear, sets that bit, and does not hand out a block that is in use; a
release clears the bit that stands for its block and no other. -/
theorem alloc_free_agree {w₀ : World} {live₀ : List ℕ} (hc : Consistent fs blocksCnt w₀)
    (hs : Sound fs blocksCnt) (hlive : ∀ b ∈ live₀, b < blocksCnt ∧ homeBit fs w₀ b = true)
    (hnodup : live₀.Nodup) (h : Reach (AllocSys.call fs) (BlockLeft fs) ⟨w₀, live₀⟩ σ) :
    (BlockLeft fs σ .alloc → ∃ b w', allocBlock fs σ.w = some (b, w') ∧
      (b ≠ minusOne → fs.firstDataBlock ≤ b ∧ b < blocksCnt ∧ homeBit fs σ.w b = false ∧
        homeBit fs w' b = true ∧ b ∉ σ.live)) ∧
    ∀ b ∈ σ.live, ∀ w', freeBlock fs σ.w b = (true, w') →
      ∀ g < fs.groupsCount, ∀ j < 8 * fs.blksize,
        bit fs w' .block g j = (bit fs σ.w .block g j && !decide ((g, j) = home fs b)) := by
  have hn := hc.numbers hs
  have hinv : AllocInv fs blocksCnt σ :=
    h.invariant (hc.allocInv hs hlive hnodup) fun _ _ _ hinv hok hcall => hinv.call hn hok hcall
  refine ⟨fun hleft => ?_, fun b hb w' hfree => hinv.free_bits hn hb hfree⟩
  obtain ⟨b, w', halloc, -, hblock⟩ := hinv.alloc hn hleft
  refine ⟨b, w', halloc, fun hne => ?_⟩
  rw [hs.firstDataBlock]
  exact ⟨Nat.zero_le b, hblock hne⟩

end

/-! ## A volume with one free block -/

/-- A volume of 64 blocks in one group, with its block bitmap right behind the descriptors. -/
def almostFullFs (k firstDataBlock : ℕ) : Fs where
  blksize := 1024 * 2 ^ k
  inodeSize := 128
  groupsCount := 1
  blkPerGroup := 8192
  inodePerGrp := 16
  firstBlockGroupNo := firstDataBlock + 1
  firstDataBlock := firstDataBlock
  blockGroupDescTableSize := 512

/-- All bits of the bitmaps are set but bit 10 of the block bitmap. -/
def almostFull (k firstDataBlock : ℕ) : World where
  disk := fun i => if i = (firstDataBlock + 2) * (1024 * 2 ^ k) + 1 then 0xFB#8 else 0xFF#8
  badRead := fun _ => false
  badWrite := fun _ => false
  groupDesc := ((Mem.zero.set32 0 (firstDataBlock + 2)).set32 4 (firstDataBlock + 3)).set16 12 1
  sFreeBlocks := 1
  sFreeInodes := 0
  junk := fun _ => 0
  uninit := 0

section

variable {k firstDataBlock : ℕ}

theorem bitmapBlock_almostFull (hf : firstDataBlock ≤ 1) (kind : Kind) :
    bitmapBlock kind (almostFull k firstDataBlock).groupDesc 0
      = firstDataBlock + match kind with | .block => 2 | .inode => 3 := by
  unfold bitmapBlock almostFull
  simp only
  rw [Mem.get32_set16_of_disjoint (by cases kind <;> simp [Kind.bitmapOff])]
  cases kind with
  | block =>
      simp only [Kind.bitmapOff]
      rw [Mem.get32_set32_of_disjoint (by omega), Mem.get32_set32_self]
      omega
  | inode =>
      simp only [Kind.bitmapOff]
      rw [Mem.get32_set32_self]
      omega

theorem almostFullFs_sized (hk : k ≤ 1) : (almostFullFs k firstDataBlock).Sized :=
  ⟨k, by omega, rfl⟩

/-- Bit 10 is the only clear one. -/
theorem bit_almostFull (hk : k ≤ 1) (hf : firstDataBlock ≤ 1) (j : ℕ) :
    bit (almostFullFs k firstDataBlock) (almostFull k firstDataBlock) .block 0 j
      = !decide (j = 10) := by
  have hpow : 2 ^ k ≤ 2 ^ 1 := Nat.pow_le_pow_right (by omega) hk
  have haddr : (almostFullFs k firstDataBlock).Addressable (firstDataBlock + 2) := by
    unfold Fs.Addressable almostFullFs
    simp only
    calc (firstDataBlock + 2) * (1024 * 2 ^ k) ≤ 3 * (1024 * 2) :=
          Nat.mul_le_mul (by omega) (by omega)
      _ < 2 ^ 32 := by norm_num
  have hsector := (almostFullFs_sized hk).sector_eq haddr
  rw [bit, bitmapBlock_almostFull hf]
  simp only [World.block, Mem.testBit, hsector]
  have hones : ∀ i < 8, (0xFF#8).getLsbD i = true := by decide
  have hten : ∀ i < 8, (0xFB#8).getLsbD i = !decide (i = 2) := by decide
  simp only [almostFull, almostFullFs]
  by_cases hbyte : j / 8 = 1
  · rw [if_pos (by rw [hbyte]), hten _ (by omega)]
    congr 2
    rw [eq_iff_iff]
    omega
  · rw [if_neg (by omega), hones _ (by omega)]
    have hne : j ≠ 10 := by omega
    simp [hne]

theorem almostFull_consistent (hk : k ≤ 1) (hf : firstDataBlock ≤ 1) :
    Consistent (almostFullFs k firstDataBlock) 64 (almostFull k firstDataBlock) := by
  have hpow : 0 < 2 ^ k := by positivity
  have hlarge : 10 < 8 * (almostFullFs k firstDataBlock).blksize := by
    simp only [almostFullFs]
    omega
  refine ⟨almostFullFs_sized hk, ⟨hf, by simp only [almostFullFs]; omega⟩,
    ⟨by simp [almostFullFs], by simp only [almostFullFs]; omega⟩, ?groups,
    ⟨rfl, by simp only [almostFullFs]; omega⟩, ?bitmap, ?distinct, ?clear, ?nums⟩
  case groups =>
    simp only [almostFullFs]
    omega
  case bitmap =>
    intro kind g hg
    obtain rfl : g = 0 := by simpa [almostFullFs] using hg
    rw [bitmapBlock_almostFull hf]
    cases kind <;> simp only [almostFullFs] <;> omega
  case distinct =>
    intro kind g hg kind' g' hg' hne
    obtain rfl : g = 0 := by simpa [almostFullFs] using hg
    obtain rfl : g' = 0 := by simpa [almostFullFs] using hg'
    rw [bitmapBlock_almostFull hf, bitmapBlock_almostFull hf]
    cases kind <;> cases kind' <;> simp at hne ⊢
  case clear =>
    intro g hg j _ hclear
    obtain rfl : g = 0 := by simpa [almostFullFs] using hg
    rw [bit_almostFull hk hf j] at hclear
    obtain rfl : j = 10 := by simpa using hclear
    simp only [almostFullFs]
    omega
  case nums =>
    intro g hg
    obtain rfl : g = 0 := by simpa [almostFullFs] using hg
    have hnums : freeNums .block (almostFull k firstDataBlock).groupDesc 0 = 1 :=
      Mem.get16_set16_self _ _ _
    -- one more bit is clear than in a full bitmap
    have hchange := countBelow_change (p := fun _ : ℕ => False) (q := fun j =>
        bit (almostFullFs k firstDataBlock) (almostFull k firstDataBlock) .block 0 j = false)
      hlarge fun j _ hne => by
        rw [bit_almostFull hk hf j]
        simp [hne]
    have hnone : countBelow (8 * (almostFullFs k firstDataBlock).blksize) (fun _ => False) = 0 := by
      simp [countBelow]
    rw [if_neg (by simp), if_pos (by rw [bit_almostFull hk hf 10]; rfl), hnone] at hchange
    rw [hnums, zeros]
    omega

end

/-- A volume with blocks of 2 KiB is numbered from 0, and its free block can be allocated. -/
theorem alloc_free_agree_almostFull :
    ∃ b w', allocBlock (almostFullFs 1 0) (almostFull 1 0) = some (b, w') ∧
      (b ≠ minusOne → 0 ≤ b ∧ b < 64 ∧ homeBit (almostFullFs 1 0) (almostFull 1 0) b = false ∧
        homeBit (almostFullFs 1 0) w' b = true ∧ b ∉ ([] : List ℕ)) :=
  (alloc_free_agree (almostFull_consistent le_rfl (by omega))
    ⟨rfl, by norm_num [almostFullFs], Or.inl (by norm_num [almostFullFs])⟩ (by simp) List.nodup_nil
    (σ := ⟨almostFull 1 0, []⟩) .start).1 ⟨0, by decide, by decide +kernel⟩

/-- A volume with blocks of 1 KiB is numbered from 1: bit 10 stands for block 11, and the block that
is handed out is block 10, which is in use. -/
theorem alloc_free_can_disagree :
    ¬ ∀ (fs : Fs) (blocksCnt : ℕ) (w₀ : World) (σ : AllocSys), Consistent fs blocksCnt w₀ →
      Reach (AllocSys.call fs) (fun _ _ => True) ⟨w₀, []⟩ σ →
      ∀ b w', allocBlock fs σ.w = some (b, w') → b ≠ minusOne →
        fs.firstDataBlock ≤ b ∧ b < blocksCnt ∧ homeBit fs σ.w b = false := by
  intro hall
  have hrun : (allocBlock (almostFullFs 0 1) (almostFull 0 1)).map Prod.fst = some 10 := by
    decide +kernel
  obtain ⟨⟨b, w'⟩, halloc, rfl⟩ := Option.map_eq_some_iff.mp hrun
  obtain ⟨-, -, hbit⟩ := hall _ 64 _ ⟨almostFull 0 1, []⟩ (almostFull_consistent (by omega) le_rfl)
    .start 10 w' halloc (by decide)
  have hused : homeBit (almostFullFs 0 1) (almostFull 0 1) 10 = true := by decide +kernel
  rw [hused] at hbit
  exact absurd hbit (by simp)

end Shaunos.Ext2
