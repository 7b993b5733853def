import Shaunos.Common.Bytes

/-!
# A mounted ext2 volume

Reference: `Kernel/ext2.c` (`ext2_rw_block`, `ext2_inode_to_block`, `ext2_rw_inode`, `ext2_mount`),
`Include/kernel/ext2.h`, and for the device `Kernel/io_dev.c`, `Kernel/ahci.c`.

The device is an array of bytes, read and written in sectors of 512. A request for no sector moves
one, a request for more than 128 fails, and a request that meets a bad sector fails and moves
nothing. Block numbers are multiplied by the block size in 32 bits, so only the first 4 GiB of a
device can be named.

On-disk structures stay bytes, in memory and on disk, and are read with the offsets of
`Include/kernel/ext2.h`. Memory from `kmalloc` holds `junk` until it is written; `kmalloc` itself is
taken to succeed, since a failure ends in an assertion or in an error before anything is changed.
-/

namespace Shaunos.Ext2

/-! ## Data -/

/-- `struct ext2_file_system`, without the tables it points to. -/
structure Fs where
  blksize : ℕ
  inodeSize : ℕ
  groupsCount : ℕ
  blkPerGroup : ℕ
  inodePerGrp : ℕ
  firstBlockGroupNo : ℕ
  firstDataBlock : ℕ
  /-- The length that is written back, in bytes. `ext2_mount` does not assign this field. -/
  blockGroupDescTableSize : ℕ

/-- The device and the tables in memory. -/
structure World where
  disk : Mem
  /-- Sectors that cannot be read. -/
  badRead : ℕ → Bool
  /-- Sectors that cannot be written. -/
  badWrite : ℕ → Bool
  /-- The memory at `fs->group_desc`. -/
  groupDesc : Mem
  /-- `fs->sb->s_free_blocks`. -/
  sFreeBlocks : ℕ
  /-- `fs->sb->s_free_inodes`. -/
  sFreeInodes : ℕ
  /-- What fresh memory from `kmalloc` holds. -/
  junk : Mem
  /-- What a local variable holds that was not assigned. -/
  uninit : ℕ

/-- The result -1 of a function that returns a block or inode number. -/
def minusOne : ℕ := 2 ^ 32 - 1

/-! ## The device -/

/-- `block_read`: the buffer after a request that succeeds. -/
def blockRead (w : World) (start nums : ℕ) (buf : Mem) : Option Mem :=
  let n := max 1 nums
  if n > 128 ∨ ∃ i < n, w.badRead (start + i) = true then none
  else some (buf.memcpy 0 w.disk (512 * start) (512 * n))

/-- `block_write`: the device after a request that succeeds. -/
def blockWrite (w : World) (start nums : ℕ) (buf : Mem) : Option World :=
  let n := max 1 nums
  if n > 128 ∨ ∃ i < n, w.badWrite (start + i) = true then none
  else some { w with disk := w.disk.memcpy (512 * start) buf 0 (512 * n) }

/-! ## Blocks -/

/-- `block_no * fs->blksize / 512`, in 32 bits. -/
def Fs.sector (fs : Fs) (blockNo : ℕ) : ℕ := blockNo * fs.blksize % 2 ^ 32 / 512

/-- `ext2_rw_block` with mode 0. -/
def rwBlockRead (fs : Fs) (w : World) (blockNo : ℕ) (buf : Mem) : Option Mem :=
  blockRead w (fs.sector blockNo) (fs.blksize / 512) buf

/-- `ext2_rw_block` with mode 1. -/
def rwBlockWrite (fs : Fs) (w : World) (blockNo : ℕ) (buf : Mem) : Option World :=
  blockWrite w (fs.sector blockNo) (fs.blksize / 512) buf

/-- The write of the group descriptors that ends every change of them. -/
def writeGroupDesc (fs : Fs) (w : World) : Option World :=
  blockWrite w (fs.sector fs.firstBlockGroupNo) (fs.blockGroupDescTableSize / 512) w.groupDesc

/-! ## Group descriptors

The descriptor of group `g` is the 32 bytes at `32 * g` of the table. -/

/-- What a bitmap keeps track of. -/
inductive Kind where
  | block
  | inode
  deriving DecidableEq

/-- The offset of `block_bitmap` or `inode_bitmap` in a descriptor. -/
def Kind.bitmapOff : Kind → ℕ
  | .block => 0
  | .inode => 4

/-- The offset of `free_block_nums` or `free_inode_nums` in a descriptor. -/
def Kind.numsOff : Kind → ℕ
  | .block => 12
  | .inode => 14

/-- `block_bitmap` or `inode_bitmap` of a group. -/
def bitmapBlock (k : Kind) (gd : Mem) (g : ℕ) : ℕ := gd.get32 (32 * g + k.bitmapOff)

/-- `free_block_nums` or `free_inode_nums` of a group. -/
def freeNums (k : Kind) (gd : Mem) (g : ℕ) : ℕ := gd.get16 (32 * g + k.numsOff)

def inodeTblStart (gd : Mem) (g : ℕ) : ℕ := gd.get32 (32 * g + 8)

/-! ## Inodes

An inode is `inode_size` bytes. -/

def iMode (inode : Mem) : ℕ := inode.get16 0

def iSize (inode : Mem) : ℕ := inode.get32 4

def iLinkCnt (inode : Mem) : ℕ := inode.get16 26

def iSectorCnt (inode : Mem) : ℕ := inode.get32 28

/-- `inode->i_block[k]`. -/
def iBlock (inode : Mem) (k : ℕ) : ℕ := inode.get32 (40 + 4 * k)

def setISize (inode : Mem) (v : ℕ) : Mem := inode.set32 4 v

def setILinkCnt (inode : Mem) (v : ℕ) : Mem := inode.set16 26 v

def setISectorCnt (inode : Mem) (v : ℕ) : Mem := inode.set32 28 v

def setIBlock (inode : Mem) (k v : ℕ) : Mem := inode.set32 (40 + 4 * k) v

/-- `ext2_inode_to_block`: the block that holds an inode and the byte in it at which the inode
starts. Inode 0 does not exist. -/
def inodeToBlock (fs : Fs) (w : World) (inode : ℕ) : Option (ℕ × ℕ) :=
  if inode < 1 then none
  else
    let blockGroup := (inode - 1) / fs.inodePerGrp
    let index := (inode - 1) % fs.inodePerGrp
    let block := inodeTblStart w.groupDesc blockGroup + index * fs.inodeSize % 2 ^ 32 / fs.blksize
    let offset := index % (fs.blksize / fs.inodeSize)
    some (block % 2 ^ 32, offset * (fs.inodeSize / 128) * 128)

/-- `ext2_rw_inode` with mode 0: the inode, or `-EIO`. -/
def rwInodeRead (fs : Fs) (w : World) (inodeNo : ℕ) (buf : Mem) : Option (Option Mem) := do
  let (block, offset) ← inodeToBlock fs w inodeNo
  return (rwBlockRead fs w block w.junk).map fun tmpBuf => buf.memcpy 0 tmpBuf offset fs.inodeSize

/-- `ext2_rw_inode` with mode 1: the device, or `-EIO`. -/
def rwInodeWrite (fs : Fs) (w : World) (inodeNo : ℕ) (buf : Mem) : Option (Option World) := do
  let (block, offset) ← inodeToBlock fs w inodeNo
  return do
    let tmpBuf ← rwBlockRead fs w block w.junk
    rwBlockWrite fs w block (tmpBuf.memcpy offset buf 0 fs.inodeSize)

/-! ## `ext2_mount` -/

/-- `ext2_mount`, up to the root inode: what it keeps in memory, or an error. The new structure is
at the start of `junk`, and so is what its unassigned field holds. An assertion that fails does not
return. -/
def mount (disk : Mem) (badRead badWrite : ℕ → Bool) (junk : Mem) (uninit : ℕ) :
    Option (Option (Fs × World)) :=
  let w : World := ⟨disk, badRead, badWrite, junk, 0, 0, junk, uninit⟩
  match blockRead w 2 2 junk with
  | none => some none
  | some sb =>
      if sb.get16 56 ≠ 0xEF53 then some none
      else
        let blocksPerGroup := sb.get32 32
        -- the processor takes a shift count modulo 32
        let blksize := 1024 * 2 ^ (sb.get32 24 % 32) % 2 ^ 32
        let firstDataBlock := sb.get32 20
        let groupsCount :=
          ((sb.get32 4 + firstDataBlock + (2 ^ 32 - 1)) % 2 ^ 32 / blocksPerGroup + 1) % 2 ^ 32
        let tableSize := 32 * groupsCount % 2 ^ 32
        if blocksPerGroup = 0 ∨ tableSize > blksize then none
        else
          let tableSize := tableSize + (if tableSize % 512 ≠ 0 then 512 - tableSize % 512 else 0)
          let fs : Fs :=
            { blksize
              inodeSize := sb.get16 88
              groupsCount
              blkPerGroup := blocksPerGroup
              inodePerGrp := sb.get32 40
              firstBlockGroupNo := firstDataBlock + 1
              firstDataBlock
              blockGroupDescTableSize := junk.get32 28 }
          match blockRead w (fs.sector fs.firstBlockGroupNo) (tableSize / 512) junk with
          | none => some none
          | some groupDesc =>
              some (some (fs, { w with
                groupDesc, sFreeBlocks := sb.get32 12, sFreeInodes := sb.get32 16 }))

/-! ## What a block holds -/

/-- The block size is one that `ext2_mount` can compute: `1024 << k`. -/
def Fs.Sized (fs : Fs) : Prop := ∃ k ≤ 21, fs.blksize = 1024 * 2 ^ k

/-- The block lies in the part of the device that 32-bit byte addresses reach. -/
def Fs.Addressable (fs : Fs) (b : ℕ) : Prop := b * fs.blksize < 2 ^ 32

/-- The content of a block. -/
def World.block (w : World) (fs : Fs) (b : ℕ) : Mem := fun i => w.disk (512 * fs.sector b + i)

section

variable {fs : Fs} {w w' : World} {b b' i : ℕ} {buf m : Mem}

theorem Fs.Sized.pos (h : fs.Sized) : 1024 ≤ fs.blksize := by
  obtain ⟨k, -, hk⟩ := h
  have : 0 < 2 ^ k := by positivity
  omega

/-- A block is a whole number of sectors, and a request for a block moves all of it. -/
theorem Fs.Sized.sectors (h : fs.Sized) : 512 * max 1 (fs.blksize / 512) = fs.blksize := by
  have hpos := h.pos
  obtain ⟨k, -, hk⟩ := h
  omega

theorem Fs.Sized.sectors_mul (h : fs.Sized) : 512 * (fs.blksize / 512) = fs.blksize := by
  obtain ⟨k, -, hk⟩ := h
  omega

theorem Fs.Sized.sector_eq (h : fs.Sized) (hb : fs.Addressable b) :
    512 * fs.sector b = b * fs.blksize := by
  unfold Fs.sector
  rw [Nat.mod_eq_of_lt hb]
  obtain ⟨k, -, hk⟩ := h
  rw [hk, show b * (1024 * 2 ^ k) = 512 * (b * 2 * 2 ^ k) by ring]
  omega

theorem rwBlockRead_eq_some (hs : fs.Sized) (h : rwBlockRead fs w b buf = some m) :
    ∀ i < fs.blksize, m i = w.block fs b i := by
  unfold rwBlockRead blockRead at h
  simp only [hs.sectors] at h
  split at h
  · simp at h
  · obtain rfl := Option.some.inj h
    intro i hi
    simp [Mem.memcpy, World.block, hi]

/-- Everything but the device stays. -/
theorem blockWrite_eq_some {start nums : ℕ} (h : blockWrite w start nums buf = some w') :
    w' = { w with disk := w.disk.memcpy (512 * start) buf 0 (512 * max 1 nums) } := by
  unfold blockWrite at h
  simp only at h
  split at h
  · simp at h
  · exact (Option.some.inj h).symm

/-- A write that stays inside one block does not reach another block. -/
theorem block_memcpy_of_ne (hs : fs.Sized) (hb : fs.Addressable b) (hb' : fs.Addressable b')
    (hne : b' ≠ b) {len : ℕ} (hlen : len ≤ fs.blksize) (hi : i < fs.blksize) :
    ({ w with disk := w.disk.memcpy (512 * fs.sector b) buf 0 len } : World).block fs b' i
      = w.block fs b' i := by
  unfold World.block Mem.memcpy
  simp only [hs.sector_eq hb, hs.sector_eq hb']
  rw [if_neg]
  rintro ⟨h₁, h₂⟩
  rcases Nat.lt_or_gt_of_ne hne with hlt | hgt
  · have := Nat.mul_le_mul_right fs.blksize (show b' + 1 ≤ b from hlt)
    rw [Nat.succ_mul] at this
    omega
  · have := Nat.mul_le_mul_right fs.blksize (show b + 1 ≤ b' from hgt)
    rw [Nat.succ_mul] at this
    omega

/-- A block that was written holds the buffer; other blocks stay. -/
theorem rwBlockWrite_eq_some (hs : fs.Sized) (h : rwBlockWrite fs w b buf = some w') :
    w' = { w with disk := w'.disk } ∧ (∀ i < fs.blksize, w'.block fs b i = buf i) ∧
      (fs.Addressable b → ∀ b', fs.Addressable b' → b' ≠ b → ∀ i < fs.blksize,
        w'.block fs b' i = w.block fs b' i) := by
  have hw' := blockWrite_eq_some h
  rw [hs.sectors] at hw'
  refine ⟨by rw [hw'], fun i hi => ?_, fun hb b' hb' hne i hi => ?_⟩
  · rw [hw']
    simp [World.block, Mem.memcpy, hi]
  · rw [hw']
    exact block_memcpy_of_ne hs hb hb' hne le_rfl hi

end

end Shaunos.Ext2
