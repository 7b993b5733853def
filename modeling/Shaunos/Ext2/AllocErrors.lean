import Shaunos.Ext2.AllocRun

/-!
# Allocations that fail

Reference: `Kernel/ext2.c` (`ext2_alloc_block`, `ext2_alloc_inode`).

An allocation should set the bit of the number it returns, or return -1 and change nothing. Between
the scan of a bitmap and the end of the function there are two writes, and the counters have gone
down before both: the function does as it should if it fails before the scan or does not fail at all.
The scan has no bound of its own, so it needs a clear bit.

* `alloc_right_iff` — the states of the volume and the device in which an allocation is right.
-/

namespace Shaunos.Ext2

/-! ## Numbers and their bits -/

/-- The number of the first block or inode of a volume. -/
def Kind.first (fs : Fs) : Kind → ℕ
  | .block => fs.firstDataBlock
  | .inode => 1

/-- The number of blocks or inodes in a group. -/
def Kind.perGroup (fs : Fs) : Kind → ℕ
  | .block => fs.blkPerGroup
  | .inode => fs.inodePerGrp

/-- What the allocation of a kind takes for the first number. -/
def Kind.base : Kind → ℕ
  | .block => 0
  | .inode => 1

/-- Number `n` is the one whose bit is bit `j` of group `g`. -/
def StandsFor (fs : Fs) (k : Kind) (n g j : ℕ) : Prop :=
  n = k.first fs + k.perGroup fs * g + j ∧ j < k.perGroup fs

/-- `ext2_alloc_block` or `ext2_alloc_inode`. -/
def alloc (fs : Fs) : Kind → World → Option (ℕ × World)
  | .block => allocBlock fs
  | .inode => allocInode fs

/-- The number that is returned for bit `j` of group `g`. -/
def allocNumber (fs : Fs) (k : Kind) (g j : ℕ) : ℕ := (j + k.perGroup fs * g + k.base) % 2 ^ 32

/-- Nothing that an allocation is about has changed. -/
structure Unchanged (fs : Fs) (w w' : World) : Prop where
  groupDesc : w'.groupDesc = w.groupDesc
  total : ∀ k, w'.total k = w.total k
  bit : ∀ k, ∀ g < fs.groupsCount, ∀ j < 8 * fs.blksize, bit fs w' k g j = bit fs w k g j

/-- The number `n` has a bit, and that bit was set. -/
def Taken (fs : Fs) (k : Kind) (w w' : World) (n : ℕ) : Prop :=
  ∃ g < fs.groupsCount, ∃ j < 8 * fs.blksize, StandsFor fs k n g j ∧ bit fs w k g j = false ∧
    bit fs w' k g j = true

/-- What an allocation promises. The scan is inside the bitmap when there is a result. -/
def AllocRight (fs : Fs) (k : Kind) (w : World) : Prop :=
  ∃ n w', alloc fs k w = some (n, w') ∧
    ((n = minusOne ∧ Unchanged fs w w') ∨ (n ≠ minusOne ∧ Taken fs k w w' n))

/-! ## The condition -/

/-- The device reads `nums` sectors from `start` on. -/
def CanRead (w : World) (start nums : ℕ) : Prop :=
  max 1 nums ≤ 128 ∧ ∀ i < max 1 nums, w.badRead (start + i) = false

/-- The device writes `nums` sectors from `start` on. -/
def CanWrite (w : World) (start nums : ℕ) : Prop :=
  max 1 nums ≤ 128 ∧ ∀ i < max 1 nums, w.badWrite (start + i) = false

/-- The sector at which the bitmap of a group starts. -/
def bitmapSector (fs : Fs) (w : World) (k : Kind) (g : ℕ) : ℕ :=
  fs.sector (bitmapBlock k w.groupDesc g)

/-- Bit `j` is the first clear one of the bitmap of group `g`. -/
def FirstClear (fs : Fs) (w : World) (k : Kind) (g j : ℕ) : Prop :=
  j < 8 * fs.blksize ∧ bit fs w k g j = false ∧ ∀ i < j, bit fs w k g i = true

/-- The write of the descriptors, whose length is never assigned, runs over the byte of a bit. -/
def InTable (fs : Fs) (w : World) (k : Kind) (g j : ℕ) : Prop :=
  512 * fs.sector fs.firstBlockGroupNo ≤ 512 * bitmapSector fs w k g + j / 8 ∧
    512 * bitmapSector fs w k g + j / 8
      < 512 * fs.sector fs.firstBlockGroupNo + 512 * max 1 (fs.blockGroupDescTableSize / 512)

instance decidableInTable (fs : Fs) (w : World) (k : Kind) (g j : ℕ) : Decidable (InTable fs w k g j) :=
  inferInstanceAs (Decidable (_ ∧ _))

/-- The bit that the memory `gd` of the descriptors would put there. -/
def tableBit (fs : Fs) (w : World) (gd : Mem) (k : Kind) (g j : ℕ) : Bool :=
  (gd (512 * bitmapSector fs w k g + j / 8 - 512 * fs.sector fs.firstBlockGroupNo)).getLsbD (j % 8)

/-- The number that is returned for bit `j` of group `g` has that bit, and it is still set when the
descriptors have been written; or its own bit is another one, which that write happens to set. -/
def NumberRight (fs : Fs) (w : World) (k : Kind) (g j : ℕ) : Prop :=
  let gd := (w.countDown k g).groupDesc
  (k.first fs = k.base ∧ j < k.perGroup fs ∧ k.base + k.perGroup fs * g + j < minusOne ∧
      (InTable fs w k g j → tableBit fs w gd k g j = true)) ∨
    ∃ g' < fs.groupsCount, ∃ j' < 8 * fs.blksize, (g', j') ≠ (g, j) ∧
      allocNumber fs k g j ≠ minusOne ∧ StandsFor fs k (allocNumber fs k g j) g' j' ∧
      bit fs w k g' j' = false ∧ InTable fs w k g' j' ∧ tableBit fs w gd k g' j' = true

/-- When no group counts a free one, the variable that is returned holds -1. Otherwise the bitmap
cannot be read; or it has a clear bit, both writes succeed, and the number is right. -/
def AllocFits (fs : Fs) (k : Kind) (w : World) : Prop :=
  match groupWithFree fs k w with
  | none => w.uninit = minusOne
  | some g =>
      ¬ CanRead w (bitmapSector fs w k g) (fs.blksize / 512) ∨
        (CanWrite w (bitmapSector fs w k g) (fs.blksize / 512) ∧
          CanWrite w (fs.sector fs.firstBlockGroupNo) (fs.blockGroupDescTableSize / 512) ∧
          ∃ j, FirstClear fs w k g j ∧ NumberRight fs w k g j)

/-- The bitmaps of a kind are different blocks within reach of 32-bit addresses. -/
structure BitmapsApart (fs : Fs) (k : Kind) (w : World) : Prop where
  sized : fs.Sized
  addressable : ∀ g < fs.groupsCount, fs.Addressable (bitmapBlock k w.groupDesc g)
  distinct : ∀ g < fs.groupsCount, ∀ g' < fs.groupsCount, g ≠ g' →
    bitmapBlock k w.groupDesc g ≠ bitmapBlock k w.groupDesc g'

/-! ## Transfers -/

section

variable {fs : Fs} {w w' w₁ w₂ : World} {k : Kind} {g g' j start nums : ℕ} {buf : Mem}

theorem blockRead_isSome_iff : (blockRead w start nums buf).isSome ↔ CanRead w start nums := by
  unfold blockRead CanRead
  simp only
  split
  · rename_i h
    refine ⟨fun hsome => absurd hsome (by simp), fun hread => ?_⟩
    rcases h with h | ⟨i, hi, hbad⟩
    · omega
    · rw [hread.2 i hi] at hbad
      exact absurd hbad (by simp)
  · rename_i h
    rw [not_or, not_exists] at h
    refine ⟨fun _ => ⟨by omega, fun i hi => ?_⟩, fun _ => rfl⟩
    have := h.2 i
    simpa [hi] using this

theorem blockWrite_isSome_iff : (blockWrite w start nums buf).isSome ↔ CanWrite w start nums := by
  unfold blockWrite CanWrite
  simp only
  split
  · rename_i h
    refine ⟨fun hsome => absurd hsome (by simp), fun hwrite => ?_⟩
    rcases h with h | ⟨i, hi, hbad⟩
    · omega
    · rw [hwrite.2 i hi] at hbad
      exact absurd hbad (by simp)
  · rename_i h
    rw [not_or, not_exists] at h
    refine ⟨fun _ => ⟨by omega, fun i hi => ?_⟩, fun _ => rfl⟩
    have := h.2 i
    simpa [hi] using this

/-- The scan finds the first clear bit. -/
theorem firstZeroBit_eq_some_iff (hbits : ∀ i < 8 * fs.blksize, buf.testBit i = bit fs w k g i) :
    firstZeroBit buf (8 * fs.blksize) 0 = some j ↔ FirstClear fs w k g j := by
  constructor
  · intro h
    obtain ⟨-, hlt, hzero, hones⟩ := firstZeroBit_eq_some h
    refine ⟨by omega, by rw [← hbits j (by omega)]; exact hzero, fun i hi => ?_⟩
    rw [← hbits i (by omega)]
    exact hones i (Nat.zero_le i) hi
  · rintro ⟨hlt, hzero, hones⟩
    rw [← hbits j hlt] at hzero
    have hin : j < 0 + 8 * fs.blksize := by omega
    obtain ⟨j', hj'⟩ := Option.isSome_iff_exists.mp (firstZeroBit_isSome (Nat.zero_le j) hin hzero)
    obtain ⟨-, hlt', hzero', hones'⟩ := firstZeroBit_eq_some hj'
    have hge : ¬ j < j' := fun hjj => by
      rw [hones' j (Nat.zero_le j) hjj] at hzero
      exact absurd hzero (by simp)
    have hle : ¬ j' < j := fun hjj => by
      rw [hbits j' (by omega), hones j' hjj] at hzero'
      exact absurd hzero' (by simp)
    rw [hj', show j' = j by omega]

/-- The bits after the two writes. -/
theorem bit_of_writes (h : BitmapsApart fs k w) (hg : g < fs.groupsCount)
    (hbits : ∀ i < 8 * fs.blksize, buf.testBit i = bit fs w k g i)
    (hwrite : rwBlockWrite fs (w.countDown k g) (bitmapBlock k w.groupDesc g) (buf.setBit j) = some w₁)
    (hdesc : writeGroupDesc fs w₁ = some w₂) (hg' : g' < fs.groupsCount) {i : ℕ}
    (hi : i < 8 * fs.blksize) :
    bit fs w₂ k g' i = if InTable fs w k g' i then tableBit fs w (w.countDown k g).groupDesc k g' i
      else (bit fs w k g' i || decide ((g', i) = (g, j))) := by
  have hcount : Frame fs ∅ w (w.countDown k g) := frame_setNums ∅ w k g _ _
  obtain ⟨hw₁, hself, hother⟩ := rwBlockWrite_eq_some h.sized hwrite
  have hw₂ := blockWrite_eq_some hdesc
  have hgd₁ : w₁.groupDesc = (w.countDown k g).groupDesc := by rw [hw₁]
  have hgd₂ : w₂.groupDesc = (w.countDown k g).groupDesc := by rw [hw₂]; exact hgd₁
  have hbm : bitmapBlock k w₂.groupDesc g' = bitmapBlock k w.groupDesc g' := by
    rw [hgd₂]
    exact hcount.bitmapBlock k g'
  have hbm₁ : bitmapBlock k w₁.groupDesc g' = bitmapBlock k w.groupDesc g' := by
    rw [hgd₁]
    exact hcount.bitmapBlock k g'
  -- the bits when only the bitmap has been written
  have hbit₁ : bit fs w₁ k g' i = (bit fs w k g' i || decide ((g', i) = (g, j))) := by
    unfold bit
    rw [hbm₁]
    by_cases heq : g' = g
    · subst heq
      rw [Mem.testBit_congr hself hi, Mem.testBit_setBit, hbits i hi]
      simp [bit]
    · rw [Mem.testBit_congr (fun x hx => hother (h.addressable g hg) _ (h.addressable g' hg')
        (h.distinct g' hg' g hg heq) x hx) hi]
      have hsame : (w.countDown k g).block fs (bitmapBlock k w.groupDesc g')
          = w.block fs (bitmapBlock k w.groupDesc g') := by
        cases k <;> rfl
      rw [hsame]
      simp [heq]
  by_cases hin : InTable fs w k g' i
  · rw [if_pos hin]
    unfold InTable bitmapSector at hin
    unfold bit tableBit bitmapSector Mem.testBit World.block
    rw [hbm, hw₂]
    simp only [Mem.memcpy]
    rw [if_pos hin, Nat.zero_add, hgd₁]
  · rw [if_neg hin, ← hbit₁]
    unfold InTable bitmapSector at hin
    unfold bit Mem.testBit World.block
    rw [hbm, hbm₁, hw₂]
    simp only [Mem.memcpy]
    rw [if_neg hin]

/-- A counter that goes down changes. -/
theorem groupDesc_countDown_ne (w : World) (k : Kind) (g : ℕ) :
    (w.countDown k g).groupDesc ≠ w.groupDesc := by
  intro heq
  have hlt : freeNums k w.groupDesc g < 2 ^ 16 := Mem.get16_lt _ _
  have hnums := freeNums_setNums w k g (freeNums k w.groupDesc g + (2 ^ 16 - 1))
    (· + (2 ^ 32 - 1)) k g
  rw [if_pos rfl] at hnums
  change freeNums k (w.countDown k g).groupDesc g = _ at hnums
  rw [heq] at hnums
  omega

theorem alloc_eq : alloc fs k w =
    match groupWithFree fs k w with
    | none => some (w.uninit, w)
    | some g => (takeBit fs k w g).map fun r => (r.1.elim minusOne (allocNumber fs k g), r.2) := by
  cases k with
  | block =>
      change allocBlock fs w = _
      unfold allocBlock
      cases groupWithFree fs .block w with
      | none => rfl
      | some g =>
          simp only
          cases takeBit fs .block w g with
          | none => rfl
          | some r =>
              obtain ⟨r, w'⟩ := r
              cases r <;> rfl
  | inode =>
      change allocInode fs w = _
      unfold allocInode
      cases groupWithFree fs .inode w with
      | none => rfl
      | some g =>
          simp only
          cases takeBit fs .inode w g with
          | none => rfl
          | some r =>
              obtain ⟨r, w'⟩ := r
              cases r <;> rfl

/-- How `takeBit` ends when the bitmap can be read. -/
theorem takeBit_of_canRead (h : BitmapsApart fs k w) (hg : g < fs.groupsCount)
    (hread : CanRead w (bitmapSector fs w k g) (fs.blksize / 512)) :
    ((¬ ∃ j, FirstClear fs w k g j) ∧ takeBit fs k w g = none) ∨
      ∃ j, FirstClear fs w k g j ∧ ∃ r w', takeBit fs k w g = some (r, w') ∧
        w'.groupDesc = (w.countDown k g).groupDesc ∧
        (r = none ∧ ¬ (CanWrite w (bitmapSector fs w k g) (fs.blksize / 512) ∧
          CanWrite w (fs.sector fs.firstBlockGroupNo) (fs.blockGroupDescTableSize / 512)) ∨
        r = some j ∧ CanWrite w (bitmapSector fs w k g) (fs.blksize / 512) ∧
          CanWrite w (fs.sector fs.firstBlockGroupNo) (fs.blockGroupDescTableSize / 512) ∧
          ∀ g' < fs.groupsCount, ∀ i < 8 * fs.blksize, bit fs w' k g' i =
            if InTable fs w k g' i then tableBit fs w (w.countDown k g).groupDesc k g' i
            else (bit fs w k g' i || decide ((g', i) = (g, j)))) := by
  obtain ⟨buf, hbuf⟩ := Option.isSome_iff_exists.mp
    ((@blockRead_isSome_iff w _ _ w.junk).mpr hread)
  have hbits : ∀ i < 8 * fs.blksize, buf.testBit i = bit fs w k g i :=
    fun i hi => testBit_rwBlockRead h.sized hbuf hi
  have hcan : ∀ start nums, CanWrite (w.countDown k g) start nums ↔ CanWrite w start nums := by
    intro start nums
    cases k <;> rfl
  unfold takeBit
  simp only
  rw [show rwBlockRead fs w (bitmapBlock k w.groupDesc g) w.junk = some buf from hbuf]
  simp only
  cases hscan : firstZeroBit buf (8 * fs.blksize) 0 with
  | none =>
      refine Or.inl ⟨?_, rfl⟩
      rintro ⟨j, hj⟩
      rw [(firstZeroBit_eq_some_iff hbits).mpr hj] at hscan
      exact absurd hscan (by simp)
  | some j =>
      refine Or.inr ⟨j, (firstZeroBit_eq_some_iff hbits).mp hscan, ?_⟩
      simp only [Option.bind_eq_bind, Option.bind_some]
      cases hwrite : rwBlockWrite fs (w.countDown k g) (bitmapBlock k w.groupDesc g) (buf.setBit j) with
      | none =>
          refine ⟨none, _, rfl, rfl, Or.inl ⟨rfl, fun hw => ?_⟩⟩
          have hsome := (@blockWrite_isSome_iff _ _ _ (buf.setBit j)).mpr ((hcan _ _).mpr hw.1)
          have hnone : blockWrite (w.countDown k g) (bitmapSector fs w k g) (fs.blksize / 512)
              (buf.setBit j) = none := hwrite
          rw [hnone] at hsome
          exact absurd hsome (by simp)
      | some w₁ =>
          have hw₁ := blockWrite_eq_some hwrite
          have hcan₁ : ∀ start nums, CanWrite w₁ start nums ↔ CanWrite w start nums := by
            intro start nums
            rw [← hcan start nums, hw₁]
            rfl
          have hbitmap : CanWrite w (bitmapSector fs w k g) (fs.blksize / 512) := by
            rw [← hcan]
            exact blockWrite_isSome_iff.mp (Option.isSome_iff_exists.mpr ⟨w₁, hwrite⟩)
          simp only
          cases hdesc : writeGroupDesc fs w₁ with
          | none =>
              refine ⟨none, w₁, rfl, by rw [hw₁], Or.inl ⟨rfl, fun hw => ?_⟩⟩
              have hsome := (@blockWrite_isSome_iff w₁ _ _ w₁.groupDesc).mpr ((hcan₁ _ _).mpr hw.2)
              have hnone : blockWrite w₁ (fs.sector fs.firstBlockGroupNo)
                  (fs.blockGroupDescTableSize / 512) w₁.groupDesc = none := hdesc
              rw [hnone] at hsome
              exact absurd hsome (by simp)
          | some w₂ =>
              have hw₂ := blockWrite_eq_some hdesc
              refine ⟨some j, w₂, rfl, by rw [hw₂, hw₁], Or.inr ⟨rfl, hbitmap, ?_, ?_⟩⟩
              · rw [← hcan₁]
                exact blockWrite_isSome_iff.mp (Option.isSome_iff_exists.mpr ⟨w₂, hdesc⟩)
              · exact fun g' hg' i hi => bit_of_writes h hg hbits hwrite hdesc hg' hi

end

/-! ## When an allocation is right -/

section

variable {fs : Fs} {w w' : World} {k : Kind} {g j : ℕ}

theorem FirstClear.unique {i : ℕ} (hi : FirstClear fs w k g i) (hj : FirstClear fs w k g j) :
    i = j := by
  rcases lt_trichotomy i j with hlt | heq | hlt
  · exact absurd (hi.2.1.symm.trans (hj.2.2 i hlt)) (by simp)
  · exact heq
  · exact absurd (hj.2.1.symm.trans (hi.2.2 j hlt)) (by simp)

/-- The number of the bit that was set stands for it when the numbers of the kind are taken right. -/
theorem allocNumber_own_iff (hfirst : k.first fs < 2 ^ 32) :
    (allocNumber fs k g j ≠ minusOne ∧ StandsFor fs k (allocNumber fs k g j) g j) ↔
      k.first fs = k.base ∧ j < k.perGroup fs ∧ k.base + k.perGroup fs * g + j < minusOne := by
  have hbase : k.base ≤ 1 := by cases k <;> simp [Kind.base]
  unfold allocNumber StandsFor minusOne
  generalize k.perGroup fs * g = m
  constructor
  · rintro ⟨hne, heq, hj⟩
    have hmod := Nat.mod_le (j + m + k.base) (2 ^ 32)
    have hfb : k.first fs = k.base := by
      cases k with
      | block =>
          simp only [Kind.base, Kind.first] at *
          omega
      | inode => rfl
    rw [hfb] at heq
    refine ⟨hfb, hj, ?_⟩
    omega
  · rintro ⟨hfb, hj, hlt⟩
    rw [Nat.mod_eq_of_lt (by omega)]
    exact ⟨by omega, by omega, hj⟩

/-- Whether the number that is returned has a bit that was set. -/
theorem numberRight_iff (hfirst : k.first fs < 2 ^ 32) (hg : g < fs.groupsCount)
    (hj : FirstClear fs w k g j)
    (hbits : ∀ g' < fs.groupsCount, ∀ i < 8 * fs.blksize, bit fs w' k g' i =
      if InTable fs w k g' i then tableBit fs w (w.countDown k g).groupDesc k g' i
      else (bit fs w k g' i || decide ((g', i) = (g, j)))) :
    (allocNumber fs k g j ≠ minusOne ∧ Taken fs k w w' (allocNumber fs k g j)) ↔
      NumberRight fs w k g j := by
  have hown := @allocNumber_own_iff fs k g j hfirst
  constructor
  · rintro ⟨hne, g', hg', j', hj', hstands, hclear, hset⟩
    rw [hbits g' hg' j' hj'] at hset
    by_cases heq : (g', j') = (g, j)
    · obtain ⟨rfl, rfl⟩ := Prod.mk.inj heq
      obtain ⟨h₁, h₂, h₃⟩ := hown.mp ⟨hne, hstands⟩
      refine Or.inl ⟨h₁, h₂, h₃, fun hin => ?_⟩
      rwa [if_pos hin] at hset
    · by_cases hin : InTable fs w k g' j'
      · rw [if_pos hin] at hset
        exact Or.inr ⟨g', hg', j', hj', heq, hne, hstands, hclear, hin, hset⟩
      · rw [if_neg hin, hclear] at hset
        exact absurd hset (by simp [heq])
  · rintro (⟨h₁, h₂, h₃, htable⟩ | ⟨g', hg', j', hj', -, hne, hstands, hclear, hin, hset⟩)
    · obtain ⟨hne, hstands⟩ := hown.mpr ⟨h₁, h₂, h₃⟩
      refine ⟨hne, g, hg, j, hj.1, hstands, hj.2.1, ?_⟩
      rw [hbits g hg j hj.1]
      split
      · rename_i hin
        exact htable hin
      · simp
    · refine ⟨hne, g', hg', j', hj', hstands, hclear, ?_⟩
      rw [hbits g' hg' j' hj', if_pos hin, hset]

/-- **When an allocation is right.** -/
theorem alloc_right_iff (h : BitmapsApart fs k w) (hfirst : k.first fs < 2 ^ 32) :
    AllocRight fs k w ↔ AllocFits fs k w := by
  unfold AllocRight AllocFits
  rw [alloc_eq]
  cases hgroup : groupWithFree fs k w with
  | none =>
      simp only
      constructor
      · rintro ⟨n, w', hrun, hright⟩
        obtain ⟨rfl, rfl⟩ := Prod.mk.inj (Option.some.inj hrun)
        rcases hright with ⟨hn, -⟩ | ⟨-, g, hg, j, hj, -, hclear, hset⟩
        · exact hn
        · rw [hclear] at hset
          exact absurd hset (by simp)
      · intro hn
        exact ⟨_, w, rfl, Or.inl ⟨hn, rfl, fun _ => rfl, fun _ _ _ _ _ => rfl⟩⟩
  | some g =>
      obtain ⟨hg, -⟩ := groupWithFree_eq_some hgroup
      simp only
      by_cases hread : CanRead w (bitmapSector fs w k g) (fs.blksize / 512)
      · simp only [hread, not_true_eq_false, false_or]
        rcases takeBit_of_canRead h hg hread with
          ⟨hfull, hnone⟩ | ⟨j, hj, r, w', htake, hgd, ⟨rfl, hfail⟩ | ⟨rfl, hbitmap, hdesc, hbits⟩⟩
        · rw [hnone]
          constructor
          · rintro ⟨n, w', hrun, -⟩
            exact absurd hrun (by simp)
          · rintro ⟨-, -, j, hj, -⟩
            exact absurd ⟨j, hj⟩ hfull
        · -- one of the writes fails, when the counters have gone down
          rw [htake]
          constructor
          · rintro ⟨n, w₁, hrun, hright⟩
            obtain ⟨rfl, rfl⟩ := Prod.mk.inj (Option.some.inj hrun)
            rcases hright with ⟨-, hsame⟩ | ⟨hne, -⟩
            · exact absurd (hgd.symm.trans hsame.groupDesc) (groupDesc_countDown_ne w k g)
            · exact absurd rfl hne
          · rintro ⟨hbitmap, hdesc, -⟩
            exact absurd ⟨hbitmap, hdesc⟩ hfail
        · rw [htake]
          have hnumber := numberRight_iff hfirst hg hj hbits
          constructor
          · rintro ⟨n, w₁, hrun, hright⟩
            obtain ⟨rfl, rfl⟩ := Prod.mk.inj (Option.some.inj hrun)
            rcases hright with ⟨-, hsame⟩ | hright
            · exact absurd (hgd.symm.trans hsame.groupDesc) (groupDesc_countDown_ne w k g)
            · exact ⟨hbitmap, hdesc, j, hj, hnumber.mp hright⟩
          · rintro ⟨-, -, j', hj', hright⟩
            obtain rfl := hj'.unique hj
            exact ⟨_, w', rfl, Or.inr (hnumber.mpr hright)⟩
      · simp only [hread, not_false_eq_true, true_or, iff_true]
        have hnone : rwBlockRead fs w (bitmapBlock k w.groupDesc g) w.junk = none := by
          rw [← Option.not_isSome_iff_eq_none]
          exact fun hsome => hread (blockRead_isSome_iff.mp hsome)
        refine ⟨minusOne, w, ?_, Or.inl ⟨rfl, rfl, fun _ => rfl, fun _ _ _ _ _ => rfl⟩⟩
        unfold takeBit
        simp only [hnone]
        rfl

end

/-! ## The volume with one free block -/

theorem almostFull_bitmapsApart (k : Kind) :
    BitmapsApart (almostFullFs 1 0) k (almostFull 1 0) := by
  refine ⟨almostFullFs_sized le_rfl, fun g hg => ?_, fun g hg g' hg' hne => ?_⟩
  · obtain rfl : g = 0 := by simpa [almostFullFs] using hg
    rw [bitmapBlock_almostFull (by omega)]
    unfold Fs.Addressable almostFullFs
    cases k <;> norm_num
  · simp only [almostFullFs] at hg hg'
    omega

/-- The free block is allocated. -/
theorem alloc_right_iff_almostFull : AllocRight (almostFullFs 1 0) .block (almostFull 1 0) := by
  refine (alloc_right_iff (almostFull_bitmapsApart .block) (by simp [Kind.first, almostFullFs])).mpr ?_
  have hgroup : groupWithFree (almostFullFs 1 0) .block (almostFull 1 0) = some 0 := by
    decide +kernel
  have hsector : bitmapSector (almostFullFs 1 0) (almostFull 1 0) .block 0 = 8 := by decide +kernel
  unfold AllocFits
  rw [hgroup]
  simp only
  refine Or.inr ⟨⟨by norm_num [almostFullFs], fun _ _ => rfl⟩,
    ⟨by norm_num [almostFullFs], fun _ _ => rfl⟩, 10, ⟨by norm_num [almostFullFs], ?_, fun i hi => ?_⟩,
    Or.inl ⟨rfl, by norm_num [almostFullFs, Kind.perGroup], ?_, fun hin => ?_⟩⟩
  · rw [bit_almostFull le_rfl (by omega)]
    simp
  · rw [bit_almostFull le_rfl (by omega)]
    simp
    omega
  · simp [Kind.base, Kind.perGroup, minusOne]
  · unfold InTable at hin
    rw [hsector] at hin
    exact absurd hin (by decide)

/-- No inode is free: the result is a variable that was never assigned. -/
theorem alloc_can_return_junk :
    ¬ ∀ (fs : Fs) (k : Kind) (w : World), BitmapsApart fs k w → k.first fs < 2 ^ 32 →
      AllocRight fs k w := by
  intro hall
  have hrun : (alloc (almostFullFs 1 0) .inode (almostFull 1 0)).map Prod.fst = some 0 := by
    decide +kernel
  obtain ⟨n, w', halloc, hright⟩ := hall _ _ _ (almostFull_bitmapsApart .inode) (by simp [Kind.first])
  rw [halloc] at hrun
  obtain rfl : n = 0 := Option.some.inj hrun
  rcases hright with ⟨hn, -⟩ | ⟨-, g, -, j, -, hstands, -⟩
  · exact absurd hn (by decide)
  · have heq := hstands.1
    simp only [Kind.first] at heq
    omega

end Shaunos.Ext2
