import Shaunos.Ext2.Volume

/-!
# The sectors of a block

Reference: `Kernel/ext2.c` (`ext2_rw_block`, `ext2_rw_inode`, and the reads of the bitmaps in
`ext2_alloc_block`, `ext2_free_block`, `ext2_alloc_inode` and `ext2_free_inode`), `Kernel/io_dev.c`.

Wherever the driver calls `block_read` or `block_write` for a block, it computes the sector as
`block * fs->blksize / 512`. Here the two functions are those of any device, so that what they are given can be
told from what they answer.

* `sectors_right_iff` — the blocks for which the sector is right.
-/

namespace Shaunos.Ext2

/-! ## Any device -/

/-- `block_read` and `block_write` of a device with the state `S`. -/
structure BlockIo (S : Type) where
  read : S → (start nums : ℕ) → Mem → Option Mem
  write : S → (start nums : ℕ) → Mem → Option S

/-- The device of a volume. -/
def World.io : BlockIo World := ⟨blockRead, blockWrite⟩

section

variable {S : Type} (io : BlockIo S) (s : S) (fs : Fs) (w : World)

/-- `ext2_rw_block` with mode 0. The bitmaps are read in the same way. -/
def rwBlockReadBy (blockNo : ℕ) (buf : Mem) : Option Mem := io.read s (fs.sector blockNo) (fs.blksize / 512) buf

/-- `ext2_rw_block` with mode 1. The bitmaps are written in the same way. -/
def rwBlockWriteBy (blockNo : ℕ) (buf : Mem) : Option S := io.write s (fs.sector blockNo) (fs.blksize / 512) buf

/-- `ext2_rw_inode` with mode 0. -/
def rwInodeReadBy (inodeNo : ℕ) (buf : Mem) : Option (Option Mem) := do
  let (block, offset) ← inodeToBlock fs w inodeNo
  return (rwBlockReadBy io s fs block w.junk).map fun tmpBuf => buf.memcpy 0 tmpBuf offset fs.inodeSize

/-- `ext2_rw_inode` with mode 1. -/
def rwInodeWriteBy (inodeNo : ℕ) (buf : Mem) : Option (Option S) := do
  let (block, offset) ← inodeToBlock fs w inodeNo
  return do
    let tmpBuf ← rwBlockReadBy io s fs block w.junk
    rwBlockWriteBy io s fs block (tmpBuf.memcpy offset buf 0 fs.inodeSize)

/-- `ext2_rw_block` and `ext2_rw_inode` of a volume. -/
theorem rwBlockReadBy_io : rwBlockReadBy World.io w fs = rwBlockRead fs w := rfl

theorem rwBlockWriteBy_io : rwBlockWriteBy World.io w fs = rwBlockWrite fs w := rfl

theorem rwInodeReadBy_io : rwInodeReadBy World.io w fs w = rwInodeRead fs w := rfl

theorem rwInodeWriteBy_io : rwInodeWriteBy World.io w fs w = rwInodeWrite fs w := rfl

end

/-! ## The sector of a block -/

/-- The sector at which the block `b` starts. -/
def Fs.firstSector (fs : Fs) (b : ℕ) : ℕ := b * (fs.blksize / 512)

/-- For the block `b`, and for the inodes and the bitmaps in it, each request is for its sectors. -/
structure SectorsRight (fs : Fs) (b : ℕ) : Prop where
  block_read : ∀ {S : Type} (io : BlockIo S) s buf,
    rwBlockReadBy io s fs b buf = io.read s (fs.firstSector b) (fs.blksize / 512) buf
  block_write : ∀ {S : Type} (io : BlockIo S) s buf,
    rwBlockWriteBy io s fs b buf = io.write s (fs.firstSector b) (fs.blksize / 512) buf
  inode_read : ∀ {S : Type} (io : BlockIo S) s w ino offset buf, inodeToBlock fs w ino = some (b, offset) →
    rwInodeReadBy io s fs w ino buf =
      some ((io.read s (fs.firstSector b) (fs.blksize / 512) w.junk).map fun tmpBuf =>
        buf.memcpy 0 tmpBuf offset fs.inodeSize)
  inode_write : ∀ {S : Type} (io : BlockIo S) s w ino offset buf, inodeToBlock fs w ino = some (b, offset) →
    rwInodeWriteBy io s fs w ino buf =
      some ((io.read s (fs.firstSector b) (fs.blksize / 512) w.junk).bind fun tmpBuf =>
        io.write s (fs.firstSector b) (fs.blksize / 512) (tmpBuf.memcpy offset buf 0 fs.inodeSize))
  bitmap_read : ∀ {S : Type} (io : BlockIo S) s k gd g buf, bitmapBlock k gd g = b →
    rwBlockReadBy io s fs (bitmapBlock k gd g) buf = io.read s (fs.firstSector b) (fs.blksize / 512) buf
  bitmap_write : ∀ {S : Type} (io : BlockIo S) s k gd g buf, bitmapBlock k gd g = b →
    rwBlockWriteBy io s fs (bitmapBlock k gd g) buf = io.write s (fs.firstSector b) (fs.blksize / 512) buf

section

variable {fs : Fs} {b : ℕ}

/-- The product does not reach 32 bits, or the sector is one of the first 4 GiB. -/
theorem sector_eq_iff (hs : fs.Sized) : fs.sector b = fs.firstSector b ↔ b * fs.blksize < 2 ^ 32 := by
  have hmul : 512 * fs.firstSector b = b * fs.blksize := by
    rw [Fs.firstSector, Nat.mul_left_comm, hs.sectors_mul]
  have hdiv : 512 * fs.sector b = b * fs.blksize % 2 ^ 32 := by
    refine Nat.mul_div_cancel' ((Nat.dvd_mod_iff (by decide)).mpr ?_)
    exact (Dvd.intro _ hmul)
  constructor
  · intro heq
    rw [heq, hmul] at hdiv
    rw [hdiv]
    exact Nat.mod_lt _ (by decide)
  · intro hlt
    rw [Nat.mod_eq_of_lt hlt] at hdiv
    omega

/-- **The blocks for which the sector is right** are those in the first 4 GiB of the device. -/
theorem sectors_right_iff (hs : fs.Sized) : SectorsRight fs b ↔ b * fs.blksize < 2 ^ 32 := by
  rw [← sector_eq_iff hs]
  constructor
  · intro hright
    -- a device that answers for one sector only
    have hread := hright.block_read ⟨fun _ start _ buf => if start = fs.sector b then some buf else none,
      fun _ _ _ _ => none⟩ () Mem.zero
    by_contra hne
    simp [rwBlockReadBy, Ne.symm hne] at hread
  · intro hsector
    constructor
    · intro S io s buf
      rw [rwBlockReadBy, hsector]
    · intro S io s buf
      rw [rwBlockWriteBy, hsector]
    · intro S io s w ino offset buf hto
      rw [rwInodeReadBy, hto]
      simp only [Option.bind_eq_bind, Option.bind_some, Option.pure_def, rwBlockReadBy, hsector]
    · intro S io s w ino offset buf hto
      rw [rwInodeWriteBy, hto]
      simp only [Option.bind_eq_bind, Option.bind_some, Option.pure_def, rwBlockReadBy, rwBlockWriteBy, hsector]
    · rintro S io s k gd g buf rfl
      rw [rwBlockReadBy, hsector]
    · rintro S io s k gd g buf rfl
      rw [rwBlockWriteBy, hsector]

end

/-! ## A volume of 8 GiB -/

/-- Blocks of 4 KiB. -/
def wideFs : Fs where
  blksize := 4096
  inodeSize := 128
  groupsCount := 64
  blkPerGroup := 32768
  inodePerGrp := 8192
  firstBlockGroupNo := 1
  firstDataBlock := 0
  blockGroupDescTableSize := 4096

theorem wideFs_sized : wideFs.Sized := ⟨2, by decide, rfl⟩

/-- The last block in the first 4 GiB. -/
theorem sectors_right_iff_last : SectorsRight wideFs (2 ^ 20 - 1) :=
  (sectors_right_iff wideFs_sized).mpr (by decide)

/-- The next block is taken for block 0. -/
theorem sectors_can_wrap :
    wideFs.sector (2 ^ 20) = wideFs.sector 0 ∧
      ¬ ∀ (fs : Fs) (blocksCnt b : ℕ), fs.Sized → blocksCnt < 2 ^ 32 → b < blocksCnt → SectorsRight fs b := by
  refine ⟨by decide, fun hall => ?_⟩
  have hright := hall wideFs (2 ^ 21) (2 ^ 20) wideFs_sized (by decide) (by decide)
  -- a device that answers for sector 0 only
  have hread : (if wideFs.sector (2 ^ 20) = 0 then some Mem.zero else none) =
      if wideFs.firstSector (2 ^ 20) = 0 then some Mem.zero else none :=
    hright.block_read ⟨fun _ start _ buf => if start = 0 then some buf else none, fun _ _ _ _ => none⟩ () Mem.zero
  rw [if_pos (by decide), if_neg (by decide)] at hread
  cases hread

end Shaunos.Ext2
