import Shaunos.Common.Count
import Shaunos.Ext2.Volume

/-!
# Allocation of blocks and inodes

Reference: `Kernel/ext2.c` (`ext2_alloc_block`, `ext2_alloc_inode`, `ext2_free_block`, and the part of
`ext2_free_inode` that clears the bit).

Blocks and inodes are allocated alike: the first group that counts a free one is looked up, the first
clear bit of its bitmap is set, the counters go down, and the bitmap and the descriptors are written
back. Freeing does the reverse for a given bit. `takeBit` and `giveBit` are the two, for either kind
of bitmap.

* `takeBit_spec`, `giveBit_spec` — what each does to the bits, the counters and the other blocks,
  wherever it ends.
-/

namespace Shaunos.Ext2

/-! ## Definitions -/

/-- The scan for the first clear bit. A bitmap without one is followed by other memory, and what the
scan does there is left open. -/
def firstZeroBit (m : Mem) : (fuel j : ℕ) → Option ℕ
  | 0, _ => none
  | fuel + 1, j => if m.testBit j then firstZeroBit m fuel (j + 1) else some j

/-- Change the two counters of a kind: the one of group `g` and the one of the superblock. -/
def World.setNums (w : World) (k : Kind) (g nums : ℕ) (total : ℕ → ℕ) : World :=
  let w := { w with groupDesc := w.groupDesc.set16 (32 * g + k.numsOff) nums }
  match k with
  | .block => { w with sFreeBlocks := total w.sFreeBlocks % 2 ^ 32 }
  | .inode => { w with sFreeInodes := total w.sFreeInodes % 2 ^ 32 }

/-- `--group_desc[g].free_…_nums; --sb->s_free_…`. -/
def World.countDown (w : World) (k : Kind) (g : ℕ) : World :=
  w.setNums k g (freeNums k w.groupDesc g + (2 ^ 16 - 1)) (· + (2 ^ 32 - 1))

/-- `++group_desc[g].free_…_nums; ++sb->s_free_…`. -/
def World.countUp (w : World) (k : Kind) (g : ℕ) : World :=
  w.setNums k g (freeNums k w.groupDesc g + 1) (· + 1)

/-- Set the first clear bit of group `g`: its number, if every transfer succeeds. -/
def takeBit (fs : Fs) (k : Kind) (w : World) (g : ℕ) : Option (Option ℕ × World) :=
  let bitmap := bitmapBlock k w.groupDesc g
  match rwBlockRead fs w bitmap w.junk with
  | none => some (none, w)
  | some buf => do
      let offset ← firstZeroBit buf (8 * fs.blksize) 0
      let w := w.countDown k g
      match rwBlockWrite fs w bitmap (buf.setBit offset) with
      | none => return (none, w)
      | some w =>
          match writeGroupDesc fs w with
          | none => return (none, w)
          | some w => return (some offset, w)

/-- Clear bit `offset` of group `g`; false stands for the result -1. -/
def giveBit (fs : Fs) (k : Kind) (w : World) (g offset : ℕ) : Bool × World :=
  let bitmap := bitmapBlock k w.groupDesc g
  match rwBlockRead fs w bitmap w.junk with
  | none => (false, w)
  | some buf =>
      match rwBlockWrite fs w bitmap (buf.clearBit offset) with
      | none => (false, w)
      | some w =>
          let w := w.countUp k g
          match writeGroupDesc fs w with
          | none => (false, w)
          | some w => (true, w)

/-- The first group that counts a free block or inode. -/
def groupWithFree (fs : Fs) (k : Kind) (w : World) : Option ℕ :=
  (List.range fs.groupsCount).find? fun g => freeNums k w.groupDesc g > 0

/-- `ext2_alloc_block`. When no group counts a free block, `block_no` is returned unassigned. -/
def allocBlock (fs : Fs) (w : World) : Option (ℕ × World) :=
  match groupWithFree fs .block w with
  | none => some (w.uninit, w)
  | some i => do
      let (offset, w) ← takeBit fs .block w i
      match offset with
      | none => return (minusOne, w)
      | some offset => return ((offset + fs.blkPerGroup * i) % 2 ^ 32, w)

/-- `ext2_alloc_inode`. When no group counts a free inode, `inode_no` is returned unassigned. -/
def allocInode (fs : Fs) (w : World) : Option (ℕ × World) :=
  match groupWithFree fs .inode w with
  | none => some (w.uninit, w)
  | some i => do
      let (offset, w) ← takeBit fs .inode w i
      match offset with
      | none => return (minusOne, w)
      | some offset => return ((offset + fs.inodePerGrp * i + 1) % 2 ^ 32, w)

/-- The group that `ext2_free_block` works on, with unsigned arithmetic. -/
def freeGroup (fs : Fs) (blockNo : ℕ) : ℕ :=
  (blockNo + (2 ^ 32 - fs.firstDataBlock)) % 2 ^ 32 / fs.blkPerGroup

/-- `ext2_free_block`; false stands for the result -1. -/
def freeBlock (fs : Fs) (w : World) (blockNo : ℕ) : Bool × World :=
  let groupNo := freeGroup fs blockNo
  let offsetInGroup := (blockNo + (2 ^ 32 - groupNo * fs.blkPerGroup % 2 ^ 32)) % 2 ^ 32
  giveBit fs .block w groupNo offsetInGroup

/-! ## Bits and counters -/

/-- Bit `j` of the bitmap of group `g` on disk. -/
def bit (fs : Fs) (w : World) (k : Kind) (g j : ℕ) : Bool :=
  (w.block fs (bitmapBlock k w.groupDesc g)).testBit j

/-- The counter of a kind in the superblock. -/
def World.total (w : World) : Kind → ℕ
  | .block => w.sFreeBlocks
  | .inode => w.sFreeInodes

/-- The metadata of the volume does not get in its own way: bitmaps and descriptors are different
blocks within reach of 32-bit addresses, and the write of the descriptors stays inside its block or
is refused by the device. -/
structure Placed (fs : Fs) (w : World) : Prop where
  sized : fs.Sized
  gdt : fs.Addressable fs.firstBlockGroupNo
  table : 512 * max 1 (fs.blockGroupDescTableSize / 512) ≤ fs.blksize ∨
    128 < max 1 (fs.blockGroupDescTableSize / 512)
  bitmap : ∀ k, ∀ g < fs.groupsCount, fs.Addressable (bitmapBlock k w.groupDesc g) ∧
    bitmapBlock k w.groupDesc g ≠ fs.firstBlockGroupNo
  distinct : ∀ k, ∀ g < fs.groupsCount, ∀ k', ∀ g' < fs.groupsCount, (k, g) ≠ (k', g') →
    bitmapBlock k w.groupDesc g ≠ bitmapBlock k' w.groupDesc g'

/-- What stays the same when bitmaps, counters and the descriptors change: the addresses in the
descriptors, the health of the device, and every block outside `S`. -/
structure Frame (fs : Fs) (S : Set ℕ) (w w' : World) : Prop where
  bitmapBlock : ∀ k g, bitmapBlock k w'.groupDesc g = bitmapBlock k w.groupDesc g
  inodeTblStart : ∀ g, inodeTblStart w'.groupDesc g = inodeTblStart w.groupDesc g
  badRead : w'.badRead = w.badRead
  badWrite : w'.badWrite = w.badWrite
  junk : w'.junk = w.junk
  uninit : w'.uninit = w.uninit
  block : ∀ b, fs.Addressable b → b ∉ S → ∀ i < fs.blksize, w'.block fs b i = w.block fs b i

namespace Frame

variable {fs : Fs} {S T : Set ℕ} {u v w : World}

theorem refl (fs : Fs) (S : Set ℕ) (w : World) : Frame fs S w w :=
  ⟨fun _ _ => rfl, fun _ => rfl, rfl, rfl, rfl, rfl, fun _ _ _ _ _ => rfl⟩

theorem trans (h : Frame fs S u v) (h' : Frame fs S v w) : Frame fs S u w where
  bitmapBlock k g := (h'.bitmapBlock k g).trans (h.bitmapBlock k g)
  inodeTblStart g := (h'.inodeTblStart g).trans (h.inodeTblStart g)
  badRead := h'.badRead.trans h.badRead
  badWrite := h'.badWrite.trans h.badWrite
  junk := h'.junk.trans h.junk
  uninit := h'.uninit.trans h.uninit
  block b hb hS i hi := (h'.block b hb hS i hi).trans (h.block b hb hS i hi)

theorem mono (h : Frame fs S u v) (hST : S ⊆ T) : Frame fs T u v :=
  { h with block := fun b hb hT => h.block b hb fun hS => hT (hST hS) }

theorem placed (h : Frame fs S u v) (hp : Placed fs u) : Placed fs v where
  sized := hp.sized
  gdt := hp.gdt
  table := hp.table
  bitmap k g hg := by rw [h.bitmapBlock]; exact hp.bitmap k g hg
  distinct k g hg k' g' hg' hne := by
    rw [h.bitmapBlock, h.bitmapBlock]; exact hp.distinct k g hg k' g' hg' hne

/-- Bits of bitmaps outside `S` stay. -/
theorem bit (h : Frame fs S u v) (hp : Placed fs u) {k : Kind} {g j : ℕ} (hg : g < fs.groupsCount)
    (hS : Ext2.bitmapBlock k u.groupDesc g ∉ S) (hj : j < 8 * fs.blksize) :
    Ext2.bit fs v k g j = Ext2.bit fs u k g j := by
  unfold Ext2.bit
  rw [h.bitmapBlock]
  apply Mem.testBit_congr _ hj
  exact h.block _ (hp.bitmap k g hg).1 hS

end Frame

/-! ## The steps of an allocation -/

section

variable {fs : Fs} {w w' : World} {k : Kind} {g j : ℕ}

/-- The counters are not where the addresses are. -/
theorem frame_setNums (S : Set ℕ) (w : World) (k : Kind) (g nums : ℕ) (total : ℕ → ℕ) :
    Frame fs S w (w.setNums k g nums total) := by
  have hgd : (w.setNums k g nums total).groupDesc
      = w.groupDesc.set16 (32 * g + k.numsOff) nums := by
    cases k <;> rfl
  refine ⟨fun k' g' => ?_, fun g' => ?_, by cases k <;> rfl, by cases k <;> rfl, by cases k <;> rfl,
    by cases k <;> rfl, fun b _ _ i _ => by cases k <;> rfl⟩
  · rw [bitmapBlock, hgd, bitmapBlock]
    apply Mem.get32_set16_of_disjoint
    cases k <;> cases k' <;> simp only [Kind.bitmapOff, Kind.numsOff] <;> omega
  · rw [inodeTblStart, hgd, inodeTblStart]
    apply Mem.get32_set16_of_disjoint
    cases k <;> simp only [Kind.numsOff] <;> omega

/-- One counter of the descriptors changes. -/
theorem freeNums_setNums (w : World) (k : Kind) (g nums : ℕ) (total : ℕ → ℕ) (k' : Kind) (g' : ℕ) :
    freeNums k' (w.setNums k g nums total).groupDesc g'
      = if (k', g') = (k, g) then nums % 2 ^ 16 else freeNums k' w.groupDesc g' := by
  have hgd : (w.setNums k g nums total).groupDesc
      = w.groupDesc.set16 (32 * g + k.numsOff) nums := by
    cases k <;> rfl
  rw [freeNums, hgd]
  by_cases h : (k', g') = (k, g)
  · obtain ⟨rfl, rfl⟩ := Prod.mk.inj h
    rw [if_pos rfl, Mem.get16_set16_self]
  · rw [if_neg h, freeNums]
    apply Mem.get16_set16_of_disjoint
    rw [Prod.mk.injEq, not_and_or] at h
    cases k <;> cases k' <;> simp only [Kind.numsOff] at h ⊢ <;> simp at h <;> omega

theorem total_setNums (w : World) (k : Kind) (g nums : ℕ) (total : ℕ → ℕ) (k' : Kind) :
    (w.setNums k g nums total).total k'
      = if k' = k then total (w.total k) % 2 ^ 32 else w.total k' := by
  cases k <;> cases k' <;> rfl

/-- Writing the descriptors back changes their block only. -/
theorem frame_writeGroupDesc (hp : Placed fs w) (h : writeGroupDesc fs w = some w') :
    Frame fs {fs.firstBlockGroupNo} w w' ∧ w'.groupDesc = w.groupDesc ∧
      ∀ k, w'.total k = w.total k := by
  have hw' := blockWrite_eq_some h
  have hlen : 512 * max 1 (fs.blockGroupDescTableSize / 512) ≤ fs.blksize := by
    rcases hp.table with htable | htable
    · exact htable
    · unfold writeGroupDesc blockWrite at h
      rw [if_pos (Or.inl htable)] at h
      simp at h
  have hgd : w'.groupDesc = w.groupDesc := by rw [hw']
  refine ⟨⟨fun k g => by rw [hgd], fun g => by rw [hgd], by rw [hw'], by rw [hw'], by rw [hw'],
    by rw [hw'], fun b hb hS i hi => ?_⟩, hgd, fun k => by rw [hw']; cases k <;> rfl⟩
  rw [hw']
  exact block_memcpy_of_ne hp.sized hp.gdt hb hS hlen hi

/-- Writing a block changes that block only. -/
theorem frame_rwBlockWrite {b : ℕ} {buf : Mem} (hs : fs.Sized) (hb : fs.Addressable b)
    (h : rwBlockWrite fs w b buf = some w') :
    Frame fs {b} w w' ∧ w'.groupDesc = w.groupDesc ∧ (∀ k, w'.total k = w.total k) ∧
      ∀ i < fs.blksize, w'.block fs b i = buf i := by
  obtain ⟨hw', hself, hother⟩ := rwBlockWrite_eq_some hs h
  have hgd : w'.groupDesc = w.groupDesc := by rw [hw']
  refine ⟨⟨fun k g => by rw [hgd], fun g => by rw [hgd], by rw [hw'], by rw [hw'], by rw [hw'],
    by rw [hw'], fun b' hb' hS i hi => hother hb b' hb' hS i hi⟩, hgd,
    fun k => by rw [hw']; cases k <;> rfl, hself⟩

theorem firstZeroBit_eq_some {m : Mem} {fuel j r : ℕ} (h : firstZeroBit m fuel j = some r) :
    j ≤ r ∧ r < j + fuel ∧ m.testBit r = false ∧ ∀ i, j ≤ i → i < r → m.testBit i = true := by
  induction fuel generalizing j with
  | zero => simp [firstZeroBit] at h
  | succ fuel ih =>
      rw [firstZeroBit] at h
      split at h
      · rename_i hbit
        obtain ⟨h₁, h₂, h₃, h₄⟩ := ih h
        refine ⟨by omega, by omega, h₃, fun i hi hir => ?_⟩
        by_cases hij : i = j
        · exact hij ▸ hbit
        · exact h₄ i (by omega) hir
      · rename_i hbit
        obtain rfl := Option.some.inj h
        exact ⟨le_rfl, by omega, by simpa using hbit, fun i h₁ h₂ => by omega⟩

/-- The scan ends when there is a clear bit. -/
theorem firstZeroBit_isSome {m : Mem} {fuel j r : ℕ} (h₁ : j ≤ r) (h₂ : r < j + fuel)
    (hr : m.testBit r = false) : (firstZeroBit m fuel j).isSome = true := by
  induction fuel generalizing j with
  | zero => omega
  | succ fuel ih =>
      rw [firstZeroBit]
      split
      · rename_i hbit
        have hjr : j ≠ r := by
          rintro rfl
          exact absurd hr (by simp [hbit])
        exact ih (by omega) (by omega)
      · rfl

/-- The part of the descriptors that is written back is on the disk. -/
def DescWritten (fs : Fs) (w : World) : Prop :=
  ∀ i < 512 * max 1 (fs.blockGroupDescTableSize / 512), w.block fs fs.firstBlockGroupNo i
    = w.groupDesc i

theorem descWritten_of_writeGroupDesc (h : writeGroupDesc fs w = some w') : DescWritten fs w' := by
  have hw' := blockWrite_eq_some h
  intro i hi
  rw [hw']
  simp [World.block, Mem.memcpy, hi]

/-- The bits of a bitmap that is written from a changed copy. -/
theorem bit_rwBlockWrite (hp : Placed fs w) (hg : g < fs.groupsCount) {buf : Mem}
    (h : rwBlockWrite fs w (bitmapBlock k w.groupDesc g) buf = some w') (k' : Kind) {g' i : ℕ}
    (hg' : g' < fs.groupsCount) (hi : i < 8 * fs.blksize) :
    bit fs w' k' g' i = if (k', g') = (k, g) then buf.testBit i else bit fs w k' g' i := by
  obtain ⟨hframe, hgd, -, hself⟩ := frame_rwBlockWrite hp.sized (hp.bitmap k g hg).1 h
  split
  · rename_i heq
    obtain ⟨rfl, rfl⟩ := Prod.mk.inj heq
    rw [bit, hgd]
    exact Mem.testBit_congr hself hi
  · rename_i hne
    exact hframe.bit hp hg' (hp.distinct k' g' hg' k g hg hne) hi

/-- The bits of a bitmap as they are read into a buffer. -/
theorem testBit_rwBlockRead (hs : fs.Sized) {buf m : Mem}
    (h : rwBlockRead fs w (bitmapBlock k w.groupDesc g) buf = some m) {i : ℕ}
    (hi : i < 8 * fs.blksize) : m.testBit i = bit fs w k g i :=
  Mem.testBit_congr (rwBlockRead_eq_some hs h) hi

/-- **What `takeBit` does, wherever it ends.** Nothing; or the counters go down for a bit that is
clear, and that bit is set unless its bitmap could not be written; if it reports the bit, the
descriptors have been written too. -/
theorem takeBit_spec (hp : Placed fs w) (hg : g < fs.groupsCount) {r : Option ℕ}
    (h : takeBit fs k w g = some (r, w')) :
    Frame fs {bitmapBlock k w.groupDesc g, fs.firstBlockGroupNo} w w' ∧
    ((r = none ∧ w' = w) ∨
      ∃ j < 8 * fs.blksize, bit fs w k g j = false ∧
        w'.groupDesc = (w.countDown k g).groupDesc ∧
        (∀ k', w'.total k' = (w.countDown k g).total k') ∧
        ((r = none ∧ ∀ k', ∀ g' < fs.groupsCount, ∀ i < 8 * fs.blksize,
            bit fs w' k' g' i = bit fs w k' g' i) ∨
          ((r = none ∨ r = some j ∧ DescWritten fs w') ∧
            ∀ k', ∀ g' < fs.groupsCount, ∀ i < 8 * fs.blksize,
              bit fs w' k' g' i = (bit fs w k' g' i || decide ((k', g', i) = (k, g, j)))))) := by
  unfold takeBit at h
  simp only at h
  split at h
  · obtain ⟨rfl, rfl⟩ := Prod.mk.inj (Option.some.inj h)
    exact ⟨Frame.refl _ _ _, Or.inl ⟨rfl, rfl⟩⟩
  rename_i buf hread
  obtain ⟨j, hj, h⟩ := Option.bind_eq_some_iff.mp h
  obtain ⟨-, hlt, hzero, -⟩ := firstZeroBit_eq_some hj
  have hbuf : ∀ i < 8 * fs.blksize, buf.testBit i = bit fs w k g i :=
    fun i hi => testBit_rwBlockRead hp.sized hread hi
  have hj8 : j < 8 * fs.blksize := by omega
  have hclear : bit fs w k g j = false := by rw [← hbuf j hj8]; exact hzero
  -- the counters go down before anything is written
  have hcount : ∀ S, Frame fs S w (w.countDown k g) := fun S => frame_setNums S w k g _ _
  have hp₁ : Placed fs (w.countDown k g) := (hcount ∅).placed hp
  have hbits₁ : ∀ k', ∀ g' < fs.groupsCount, ∀ i < 8 * fs.blksize,
      bit fs (w.countDown k g) k' g' i = bit fs w k' g' i :=
    fun k' g' hg' i hi => (hcount ∅).bit hp hg' (Set.notMem_empty _) hi
  have hbm : bitmapBlock k (w.countDown k g).groupDesc g = bitmapBlock k w.groupDesc g :=
    (hcount ∅).bitmapBlock k g
  split at h
  · -- the bitmap could not be written
    obtain ⟨rfl, rfl⟩ := Prod.mk.inj (Option.some.inj h)
    exact ⟨hcount _, Or.inr ⟨j, hj8, hclear, rfl, fun _ => rfl, Or.inl ⟨rfl, hbits₁⟩⟩⟩
  rename_i w₂ hwrite
  rw [← hbm] at hwrite
  obtain ⟨hframe₂, hgd₂, htotal₂, -⟩ := frame_rwBlockWrite hp.sized (hp₁.bitmap k g hg).1 hwrite
  rw [hbm] at hframe₂
  have hbits₂ : ∀ k', ∀ g' < fs.groupsCount, ∀ i < 8 * fs.blksize,
      bit fs w₂ k' g' i = (bit fs w k' g' i || decide ((k', g', i) = (k, g, j))) := by
    intro k' g' hg' i hi
    rw [bit_rwBlockWrite hp₁ hg hwrite k' hg' hi]
    split
    · rename_i heq
      obtain ⟨rfl, rfl⟩ := Prod.mk.inj heq
      rw [Mem.testBit_setBit, hbuf i hi]
      simp
    · rename_i hne
      rw [hbits₁ k' g' hg' i hi]
      have hne' : (k', g', i) ≠ (k, g, j) := by
        intro heq
        simp only [Prod.mk.injEq] at heq hne
        exact hne ⟨heq.1, heq.2.1⟩
      simp [hne']
  have hframe₁ : Frame fs {bitmapBlock k w.groupDesc g, fs.firstBlockGroupNo} w w₂ :=
    (hcount _).trans (hframe₂.mono (by simp))
  split at h
  · -- the descriptors could not be written
    obtain ⟨rfl, rfl⟩ := Prod.mk.inj (Option.some.inj h)
    exact ⟨hframe₁, Or.inr ⟨j, hj8, hclear, hgd₂, htotal₂, Or.inr ⟨Or.inl rfl, hbits₂⟩⟩⟩
  rename_i w₃ hdesc
  obtain ⟨rfl, rfl⟩ := Prod.mk.inj (Option.some.inj h)
  obtain ⟨hframe₃, hgd₃, htotal₃⟩ := frame_writeGroupDesc (hframe₁.placed hp) hdesc
  refine ⟨hframe₁.trans (hframe₃.mono (by simp)), Or.inr ⟨j, hj8, hclear, hgd₃.trans hgd₂,
    fun k' => (htotal₃ k').trans (htotal₂ k'),
    Or.inr ⟨Or.inr ⟨rfl, descWritten_of_writeGroupDesc hdesc⟩, fun k' g' hg' i hi => ?_⟩⟩⟩
  have hp₂ := hframe₁.placed hp
  rw [hframe₃.bit hp₂ hg' (hp₂.bitmap k' g' hg').2 hi]
  exact hbits₂ k' g' hg' i hi

/-- **What `giveBit` does, wherever it ends.** Nothing; or the bit is cleared and the counters go up;
if it reports success, the descriptors have been written too. -/
theorem giveBit_spec (hp : Placed fs w) (hg : g < fs.groupsCount) {ok : Bool}
    (h : giveBit fs k w g j = (ok, w')) :
    Frame fs {bitmapBlock k w.groupDesc g, fs.firstBlockGroupNo} w w' ∧
    ((ok = false ∧ w' = w) ∨
      (w'.groupDesc = (w.countUp k g).groupDesc ∧
        (∀ k', w'.total k' = (w.countUp k g).total k') ∧
        (ok = true → DescWritten fs w') ∧
        ∀ k', ∀ g' < fs.groupsCount, ∀ i < 8 * fs.blksize,
          bit fs w' k' g' i = (bit fs w k' g' i && !decide ((k', g', i) = (k, g, j))))) := by
  unfold giveBit at h
  simp only at h
  split at h
  · obtain ⟨rfl, rfl⟩ := Prod.mk.inj h
    exact ⟨Frame.refl _ _ _, Or.inl ⟨rfl, rfl⟩⟩
  rename_i buf hread
  split at h
  · obtain ⟨rfl, rfl⟩ := Prod.mk.inj h
    exact ⟨Frame.refl _ _ _, Or.inl ⟨rfl, rfl⟩⟩
  rename_i w₁ hwrite
  obtain ⟨hframe₁, hgd₁, htotal₁, -⟩ := frame_rwBlockWrite hp.sized (hp.bitmap k g hg).1 hwrite
  have hbits₁ : ∀ k', ∀ g' < fs.groupsCount, ∀ i < 8 * fs.blksize,
      bit fs w₁ k' g' i = (bit fs w k' g' i && !decide ((k', g', i) = (k, g, j))) := by
    intro k' g' hg' i hi
    rw [bit_rwBlockWrite hp hg hwrite k' hg' hi]
    split
    · rename_i heq
      obtain ⟨rfl, rfl⟩ := Prod.mk.inj heq
      rw [Mem.testBit_clearBit, testBit_rwBlockRead hp.sized hread hi]
      simp
    · rename_i hne
      have hne' : (k', g', i) ≠ (k, g, j) := by
        intro heq
        simp only [Prod.mk.injEq] at heq hne
        exact hne ⟨heq.1, heq.2.1⟩
      simp [hne']
  -- the counters go up after the bitmap is on the disk
  set w₂ := w₁.countUp k g with hw₂
  have hcount : ∀ S, Frame fs S w₁ w₂ := fun S => frame_setNums S w₁ k g _ _
  have hframe₂ : Frame fs {bitmapBlock k w.groupDesc g, fs.firstBlockGroupNo} w w₂ :=
    (hframe₁.mono (by simp)).trans (hcount _)
  have hp₁ := hframe₁.placed hp
  have hp₂ := hframe₂.placed hp
  have hgd₂ : w₂.groupDesc = (w.countUp k g).groupDesc := by
    rw [hw₂]
    cases k <;> simp [World.countUp, World.setNums, hgd₁]
  have htotal₂ : ∀ k', w₂.total k' = (w.countUp k g).total k' := by
    intro k'
    rw [hw₂, World.countUp, World.countUp, total_setNums, total_setNums, htotal₁, htotal₁]
  have hbits₂ : ∀ k', ∀ g' < fs.groupsCount, ∀ i < 8 * fs.blksize,
      bit fs w₂ k' g' i = (bit fs w k' g' i && !decide ((k', g', i) = (k, g, j))) :=
    fun k' g' hg' i hi =>
      ((hcount ∅).bit hp₁ hg' (Set.notMem_empty _) hi).trans (hbits₁ k' g' hg' i hi)
  split at h
  · obtain ⟨rfl, rfl⟩ := Prod.mk.inj h
    exact ⟨hframe₂, Or.inr ⟨hgd₂, htotal₂, by simp, hbits₂⟩⟩
  rename_i w₃ hdesc
  obtain ⟨rfl, rfl⟩ := Prod.mk.inj h
  obtain ⟨hframe₃, hgd₃, htotal₃⟩ := frame_writeGroupDesc hp₂ hdesc
  refine ⟨hframe₂.trans (hframe₃.mono (by simp)), Or.inr ⟨hgd₃.trans hgd₂,
    fun k' => (htotal₃ k').trans (htotal₂ k'), fun _ => descWritten_of_writeGroupDesc hdesc,
    fun k' g' hg' i hi => ?_⟩⟩
  rw [hframe₃.bit hp₂ hg' (hp₂.bitmap k' g' hg').2 hi]
  exact hbits₂ k' g' hg' i hi

end

end Shaunos.Ext2
