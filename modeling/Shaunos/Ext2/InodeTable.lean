import Shaunos.Ext2.Volume

/-!
# The inodes in their tables

Reference: `Kernel/ext2.c` (`ext2_inode_to_block`, `ext2_rw_inode`).

The inodes of a group stand one behind the other from `inode_tbl_start` on. `ext2_inode_to_block` cuts the
position of an inode into a block and an index in it, and `ext2_rw_inode` makes a byte of the device of them
again. All of this is in 32 bits, and what comes out is the position modulo 4 GiB.

* `inodeAddr_eq` — the byte of the device at which an inode is read and written;
* `inodesRight_iff` — when two inodes are kept apart.
-/

namespace Shaunos.Ext2

/-! ## Positions -/

/-- The group of an inode. -/
def Fs.inodeGroup (fs : Fs) (ino : ℕ) : ℕ := (ino - 1) / fs.inodePerGrp

/-- The byte at which the inode table of a group starts. -/
def Fs.tableStart (fs : Fs) (gd : Mem) (g : ℕ) : ℕ := inodeTblStart gd g * fs.blksize

/-- The byte at which an inode stands. -/
def Fs.inodePos (fs : Fs) (gd : Mem) (ino : ℕ) : ℕ :=
  fs.tableStart gd (fs.inodeGroup ino) + (ino - 1) % fs.inodePerGrp * fs.inodeSize

/-- The byte of the device at which `ext2_rw_inode` reads and writes an inode. -/
def Fs.inodeAddr (fs : Fs) (w : World) (ino : ℕ) : ℕ :=
  match inodeToBlock fs w ino with
  | none => 0
  | some (block, offset) => 512 * fs.sector block + offset

/-- Inodes of a size that `ext2_rw_inode` is made for. -/
structure Fs.Inodes (fs : Fs) : Prop where
  sized : fs.Sized
  inodeSize : ∃ a, fs.inodeSize = 128 * 2 ^ a
  le : fs.inodeSize ≤ fs.blksize
  inodePerGrp : 0 < fs.inodePerGrp

/-- The bytes from `a` on, as many as an inode has, are bytes of the table that the inode belongs to. -/
def Fs.InTable (fs : Fs) (gd : Mem) (ino a : ℕ) : Prop :=
  fs.tableStart gd (fs.inodeGroup ino) ≤ a ∧
    a + fs.inodeSize ≤ fs.tableStart gd (fs.inodeGroup ino) + fs.inodePerGrp * fs.inodeSize

/-- What was written to the inode `i` is read back, the inode `j` is still what it was, and they have places of
their own in their tables. -/
structure InodesRight (fs : Fs) (gd : Mem) (i j : ℕ) : Prop where
  back : ∀ w buf w', w.groupDesc = gd → rwInodeWrite fs w i buf = some (some w') →
    ∀ m, ∃ r, rwInodeRead fs w' i m = some (some r) ∧ ∀ x < fs.inodeSize, r x = buf x
  other : j ≠ i → ∀ w buf w', w.groupDesc = gd → rwInodeWrite fs w i buf = some (some w') →
    ∀ m, rwInodeRead fs w' j m = rwInodeRead fs w j m
  apart : j ≠ i → ∀ w, w.groupDesc = gd →
    fs.inodeAddr w i + fs.inodeSize ≤ fs.inodeAddr w j ∨ fs.inodeAddr w j + fs.inodeSize ≤ fs.inodeAddr w i
  inTable : ∀ w, w.groupDesc = gd →
    fs.InTable gd i (fs.inodeAddr w i) ∧ fs.InTable gd j (fs.inodeAddr w j)

/-! ## What the code reads and writes -/

section

variable {fs : Fs} {w w' : World} {gd buf m : Mem} {ino i j : ℕ}

theorem Fs.Inodes.size_pos (h : fs.Inodes) : 0 < fs.inodeSize := by
  have ⟨a, ha⟩ := h.inodeSize
  rw [ha]
  positivity

/-- A block is a whole number of inodes. -/
theorem Fs.Inodes.size_dvd (h : fs.Inodes) : fs.inodeSize ∣ fs.blksize := by
  have ⟨a, ha⟩ := h.inodeSize
  have ⟨k, _, hk⟩ := h.sized
  have hle := h.le
  rw [ha, hk] at hle ⊢
  have h1024 : 1024 * 2 ^ k = 128 * 2 ^ (k + 3) := by ring
  rw [h1024] at hle ⊢
  have hpow : 2 ^ a ≤ 2 ^ (k + 3) := Nat.le_of_mul_le_mul_left hle (by decide)
  exact Nat.mul_dvd_mul_left 128 (Nat.pow_dvd_pow 2 ((Nat.pow_le_pow_iff_right (by decide)).mp hpow))

/-- So is the part of the device that can be named. -/
theorem Fs.Sized.dvd (h : fs.Sized) : fs.blksize ∣ 2 ^ 32 := by
  have ⟨k, hk, hblk⟩ := h
  have hpow : fs.blksize = 2 ^ (10 + k) := by rw [hblk, pow_add]; rfl
  rw [hpow]
  exact Nat.pow_dvd_pow 2 (by omega)

theorem Fs.Inodes.offset_le (h : fs.Inodes) (index : ℕ) :
    index % (fs.blksize / fs.inodeSize) * fs.inodeSize + fs.inodeSize ≤ fs.blksize := by
  have ⟨n, hn⟩ := h.size_dvd
  have hpos := h.size_pos
  have hbs := h.sized.pos
  have hn0 : 0 < n := by
    rcases Nat.eq_zero_or_pos n with rfl | hn0
    · omega
    · exact hn0
  rw [hn, Nat.mul_div_cancel_left _ hpos, ← Nat.succ_mul, Nat.mul_comm fs.inodeSize]
  exact Nat.mul_le_mul_right _ (Nat.mod_lt _ hn0)

theorem Fs.Inodes.scale (h : fs.Inodes) : fs.inodeSize / 128 * 128 = fs.inodeSize := by
  have ⟨a, ha⟩ := h.inodeSize
  rw [ha]
  omega

/-- The block and the offset, for a valid number. -/
theorem inodeToBlock_eq (h : fs.Inodes) (hino : 1 ≤ ino) :
    inodeToBlock fs w ino =
      some ((inodeTblStart w.groupDesc (fs.inodeGroup ino) +
          (ino - 1) % fs.inodePerGrp * fs.inodeSize % 2 ^ 32 / fs.blksize) % 2 ^ 32,
        (ino - 1) % fs.inodePerGrp % (fs.blksize / fs.inodeSize) * fs.inodeSize) := by
  rw [inodeToBlock, if_neg (by omega)]
  dsimp only
  rw [Nat.mul_assoc, h.scale]
  rfl

/-- A rest below `d` can be added before or behind a reduction modulo a multiple of `d`. -/
theorem mod_add_of_dvd {a d n r : ℕ} (ha : d ∣ a) (hn : d ∣ n) (hpos : 0 < n) (hr : r < d) :
    a % n + r = (a + r) % n := by
  obtain ⟨c, hc⟩ := hn
  obtain ⟨b, hb⟩ := (Nat.dvd_mod_iff ⟨c, hc⟩).mpr ha
  have hlt : d * b < d * c := by
    rw [← hb, ← hc]
    exact Nat.mod_lt _ hpos
  have hbc : b + 1 ≤ c := Nat.lt_of_mul_lt_mul_left hlt
  have hle : d * b + d ≤ d * c := by
    rw [← Nat.mul_succ]
    exact Nat.mul_le_mul_left d hbc
  have hsum : a % n + r < n := by omega
  rw [Nat.add_mod, Nat.mod_eq_of_lt (by omega : r < n), Nat.mod_eq_of_lt hsum]

/-- **The byte of the device at which an inode is read and written** is its position modulo 4 GiB. -/
theorem inodeAddr_eq (h : fs.Inodes) (hino : 1 ≤ ino) :
    fs.inodeAddr w ino = fs.inodePos w.groupDesc ino % 2 ^ 32 := by
  set start := inodeTblStart w.groupDesc (fs.inodeGroup ino)
  set x := (ino - 1) % fs.inodePerGrp * fs.inodeSize with hx
  have hbs : 0 < fs.blksize := by have := h.sized.pos; omega
  have hdvd := h.sized.dvd
  have h512 : 512 ∣ fs.blksize := ⟨_, h.sized.sectors_mul.symm⟩
  -- the offset in the block
  have hoff : (ino - 1) % fs.inodePerGrp % (fs.blksize / fs.inodeSize) * fs.inodeSize = x % 2 ^ 32 % fs.blksize := by
    rw [Nat.mod_mod_of_dvd _ hdvd, hx, ← Nat.mul_mod_mul_right, Nat.div_mul_cancel h.size_dvd]
  -- the block
  have hblock : 512 * fs.sector ((start + x % 2 ^ 32 / fs.blksize) % 2 ^ 32) =
      (start * fs.blksize + x % 2 ^ 32 / fs.blksize * fs.blksize) % 2 ^ 32 := by
    rw [Fs.sector, Nat.mod_mul_mod, Nat.add_mul, Nat.mul_div_cancel']
    refine (Nat.dvd_mod_iff (by decide)).mpr ?_
    exact Nat.dvd_add (h512.trans (Nat.dvd_mul_left _ _)) (h512.trans (Nat.dvd_mul_left _ _))
  rw [Fs.inodeAddr, inodeToBlock_eq h hino]
  dsimp only
  rw [hoff, hblock, mod_add_of_dvd (Nat.dvd_add (Nat.dvd_mul_left _ _) (Nat.dvd_mul_left _ _)) hdvd (by decide)
    (Nat.mod_lt _ hbs), Nat.add_assoc, Nat.div_add_mod', Nat.add_mod_mod]
  rfl

/-- A read of the block that holds the inode fails. -/
def Fs.InodeRefused (fs : Fs) (w : World) (ino : ℕ) : Prop :=
  ∃ block offset, inodeToBlock fs w ino = some (block, offset) ∧ rwBlockRead fs w block w.junk = none

/-- What is on the device has nothing to do with it. -/
theorem inodeRefused_disk (disk : Mem) : fs.InodeRefused { w with disk := disk } ino ↔ fs.InodeRefused w ino := by
  have hread : ∀ block, rwBlockRead fs { w with disk := disk } block w.junk = none ↔
      rwBlockRead fs w block w.junk = none := by
    intro block
    simp only [rwBlockRead, blockRead, ite_eq_left_iff, reduceCtorEq, imp_false]
  exact exists_congr fun block => exists_congr fun _ => and_congr_right fun _ => hread block

/-- An inode is read from its bytes on the device. -/
theorem rwInodeRead_cases (h : fs.Inodes) (hino : 1 ≤ ino) (m : Mem) :
    fs.InodeRefused w ino ∧ rwInodeRead fs w ino m = some none ∨
      ¬ fs.InodeRefused w ino ∧
        rwInodeRead fs w ino m = some (some (m.memcpy 0 w.disk (fs.inodeAddr w ino) fs.inodeSize)) := by
  have hto := inodeToBlock_eq (w := w) h hino
  set block := (inodeTblStart w.groupDesc (fs.inodeGroup ino) +
    (ino - 1) % fs.inodePerGrp * fs.inodeSize % 2 ^ 32 / fs.blksize) % 2 ^ 32
  set offset := (ino - 1) % fs.inodePerGrp % (fs.blksize / fs.inodeSize) * fs.inodeSize with hoffset
  have hin : offset + fs.inodeSize ≤ fs.blksize := h.offset_le _
  have haddr : fs.inodeAddr w ino = 512 * fs.sector block + offset := by rw [Fs.inodeAddr, hto]
  have hrefused : fs.InodeRefused w ino ↔ rwBlockRead fs w block w.junk = none := by
    constructor
    · rintro ⟨b, off, hb, hnone⟩
      rw [hto] at hb
      rwa [← (Prod.mk.inj (Option.some.inj hb)).1] at hnone
    · exact fun hnone => ⟨block, offset, hto, hnone⟩
  rw [hrefused, rwInodeRead, hto]
  cases hread : rwBlockRead fs w block w.junk with
  | none => exact .inl ⟨rfl, by simp [hread]⟩
  | some tmp =>
      refine .inr ⟨by simp, ?_⟩
      simp only [Option.bind_eq_bind, Option.bind_some, Option.pure_def, hread, Option.map_some, Option.some.injEq]
      funext x
      simp only [Mem.memcpy]
      split_ifs with hx
      · rw [rwBlockRead_eq_some h.sized hread _ (by omega), World.block, haddr]
        congr 1
        omega
      · rfl

/-- Only the bytes of the inode are changed by a write that succeeds. -/
theorem rwInodeWrite_cases (h : fs.Inodes) (hino : 1 ≤ ino) (hwrite : rwInodeWrite fs w ino buf = some (some w')) :
    ¬ fs.InodeRefused w ino ∧
      w' = { w with disk := w.disk.memcpy (fs.inodeAddr w ino) buf 0 fs.inodeSize } := by
  have hto := inodeToBlock_eq (w := w) h hino
  set block := (inodeTblStart w.groupDesc (fs.inodeGroup ino) +
    (ino - 1) % fs.inodePerGrp * fs.inodeSize % 2 ^ 32 / fs.blksize) % 2 ^ 32
  set offset := (ino - 1) % fs.inodePerGrp % (fs.blksize / fs.inodeSize) * fs.inodeSize with hoffset
  have hin : offset + fs.inodeSize ≤ fs.blksize := h.offset_le _
  have haddr : fs.inodeAddr w ino = 512 * fs.sector block + offset := by rw [Fs.inodeAddr, hto]
  rw [rwInodeWrite, hto] at hwrite
  simp only [Option.bind_eq_bind, Option.bind_some, Option.pure_def, Option.some.injEq] at hwrite
  obtain ⟨tmp, hread, hwrite⟩ := Option.bind_eq_some_iff.mp hwrite
  constructor
  · rintro ⟨b, off, hb, hnone⟩
    rw [hto] at hb
    rw [← (Prod.mk.inj (Option.some.inj hb)).1, hread] at hnone
    cases hnone
  · rw [blockWrite_eq_some hwrite, h.sized.sectors]
    congr 1
    funext x
    simp only [Mem.memcpy]
    split_ifs with hblock hin' hinode hinode
    · congr 1
      omega
    · omega
    · omega
    · rw [rwBlockRead_eq_some h.sized hread _ (by omega), World.block]
      congr 1
      omega
    · omega
    · rfl

/-! ## Two inodes -/

/-- Two inodes whose positions differ modulo 4 GiB have different bytes. -/
theorem inodeAddr_apart (h : fs.Inodes) (hi : 1 ≤ i) (hj : 1 ≤ j) :
    fs.inodeAddr w i + fs.inodeSize ≤ fs.inodeAddr w j ∨ fs.inodeAddr w j + fs.inodeSize ≤ fs.inodeAddr w i ↔
      fs.inodePos w.groupDesc i % 2 ^ 32 ≠ fs.inodePos w.groupDesc j % 2 ^ 32 := by
  have hpos := h.size_pos
  -- both are multiples of the size of an inode
  have hmul : ∀ n, fs.inodeSize ∣ fs.inodePos w.groupDesc n % 2 ^ 32 := by
    intro n
    refine (Nat.dvd_mod_iff (h.size_dvd.trans h.sized.dvd)).mpr ?_
    exact Nat.dvd_add (h.size_dvd.trans (Nat.dvd_mul_left _ _)) (Nat.dvd_mul_left _ _)
  rw [inodeAddr_eq h hi, inodeAddr_eq h hj]
  obtain ⟨a, ha⟩ := hmul i
  obtain ⟨b, hb⟩ := hmul j
  rw [ha, hb]
  constructor
  · intro happart heq
    omega
  · intro hne
    rcases Nat.lt_trichotomy a b with hlt | heq | hlt
    · left
      rw [← Nat.mul_succ]
      exact Nat.mul_le_mul_left _ hlt
    · exact absurd (by rw [heq]) hne
    · right
      rw [← Nat.mul_succ]
      exact Nat.mul_le_mul_left _ hlt

/-- The end of the table is never passed. -/
theorem inTable_iff (h : fs.Inodes) (hino : 1 ≤ ino) :
    fs.InTable w.groupDesc ino (fs.inodeAddr w ino) ↔
      fs.tableStart w.groupDesc (fs.inodeGroup ino) ≤ fs.inodePos w.groupDesc ino % 2 ^ 32 := by
  rw [Fs.InTable, inodeAddr_eq h hino]
  refine and_iff_left ?_
  have hle : fs.inodePos w.groupDesc ino % 2 ^ 32 ≤ fs.inodePos w.groupDesc ino := Nat.mod_le _ _
  have hindex : (ino - 1) % fs.inodePerGrp + 1 ≤ fs.inodePerGrp := Nat.mod_lt _ h.inodePerGrp
  have hend := Nat.mul_le_mul_right fs.inodeSize hindex
  rw [Nat.succ_mul] at hend
  unfold Fs.inodePos at hle ⊢
  omega

/-- The tables of the groups do not overlap. -/
def Fs.TablesApart (fs : Fs) (gd : Mem) : Prop :=
  ∀ g < fs.groupsCount, ∀ g' < fs.groupsCount, g < g' →
    fs.tableStart gd g + fs.inodePerGrp * fs.inodeSize ≤ fs.tableStart gd g' ∨
      fs.tableStart gd g' + fs.inodePerGrp * fs.inodeSize ≤ fs.tableStart gd g

instance (fs : Fs) (gd : Mem) : Decidable (fs.TablesApart gd) :=
  inferInstanceAs (Decidable (∀ g < fs.groupsCount, ∀ g' < fs.groupsCount, g < g' → _))

/-- An inode ends where its table ends, or before. -/
theorem inodePos_le (gd : Mem) (h : fs.Inodes) (ino : ℕ) : fs.tableStart gd (fs.inodeGroup ino) ≤ fs.inodePos gd ino ∧
    fs.inodePos gd ino + fs.inodeSize ≤
      fs.tableStart gd (fs.inodeGroup ino) + fs.inodePerGrp * fs.inodeSize := by
  have hindex : (ino - 1) % fs.inodePerGrp + 1 ≤ fs.inodePerGrp := Nat.mod_lt _ h.inodePerGrp
  have hend := Nat.mul_le_mul_right fs.inodeSize hindex
  rw [Nat.succ_mul] at hend
  unfold Fs.inodePos
  omega

/-- Two inodes do not stand at the same place. -/
theorem inodePos_ne (h : fs.Inodes) (htables : fs.TablesApart gd) (hi : 1 ≤ i) (hj : 1 ≤ j)
    (hig : fs.inodeGroup i < fs.groupsCount) (hjg : fs.inodeGroup j < fs.groupsCount) (hij : j ≠ i) :
    fs.inodePos gd i ≠ fs.inodePos gd j := by
  have hpos := h.size_pos
  intro heq
  have ⟨hi₁, hi₂⟩ := inodePos_le gd h i
  have ⟨hj₁, hj₂⟩ := inodePos_le gd h j
  by_cases hg : fs.inodeGroup i = fs.inodeGroup j
  · unfold Fs.inodePos at heq
    rw [hg] at heq
    have hmod : (i - 1) % fs.inodePerGrp = (j - 1) % fs.inodePerGrp :=
      Nat.eq_of_mul_eq_mul_right hpos (Nat.add_left_cancel heq)
    have hi' := Nat.div_add_mod (i - 1) fs.inodePerGrp
    have hj' := Nat.div_add_mod (j - 1) fs.inodePerGrp
    have hdiv : (i - 1) / fs.inodePerGrp = (j - 1) / fs.inodePerGrp := hg
    rw [hmod, hdiv] at hi'
    omega
  · rcases Nat.lt_or_gt_of_ne hg with hlt | hlt
    · have := htables _ hig _ hjg hlt
      omega
    · have := htables _ hjg _ hig hlt
      omega

/-- **When two inodes are kept apart.** Each is found in its table modulo 4 GiB, and the two are not found at the
same place. -/
theorem inodesRight_iff (h : fs.Inodes) (hi : 1 ≤ i) (hj : 1 ≤ j) :
    InodesRight fs gd i j ↔
      (∀ n ∈ [i, j], fs.tableStart gd (fs.inodeGroup n) ≤ fs.inodePos gd n % 2 ^ 32) ∧
        (j ≠ i → fs.inodePos gd i % 2 ^ 32 ≠ fs.inodePos gd j % 2 ^ 32) := by
  constructor
  · intro hright
    set w : World := ⟨Mem.zero, fun _ => false, fun _ => false, gd, 0, 0, Mem.zero, 0⟩
    have ⟨hti, htj⟩ := hright.inTable w rfl
    refine ⟨?_, fun hne => (inodeAddr_apart h hi hj).mp (hright.apart hne w rfl)⟩
    intro n hn
    rcases (by simpa using hn : n = i ∨ n = j) with rfl | rfl
    · exact (inTable_iff (w := w) h hi).mp hti
    · exact (inTable_iff (w := w) h hj).mp htj
  · rintro ⟨htable, hne⟩
    constructor
    · rintro w buf w' rfl hwrite m
      have ⟨hok, hw'⟩ := rwInodeWrite_cases h hi hwrite
      have haddr : fs.inodeAddr w' i = fs.inodeAddr w i := by rw [hw']; rfl
      rcases rwInodeRead_cases (w := w') h hi m with ⟨hrefused, _⟩ | ⟨_, hread⟩
      · rw [hw', inodeRefused_disk] at hrefused
        exact absurd hrefused hok
      · refine ⟨_, hread, fun x hx => ?_⟩
        rw [haddr, hw']
        simp [Mem.memcpy, hx]
    · rintro hji w buf w' rfl hwrite m
      have ⟨_, hw'⟩ := rwInodeWrite_cases h hi hwrite
      have hapart := (inodeAddr_apart h hi hj).mpr (hne hji)
      have haddr : fs.inodeAddr w' j = fs.inodeAddr w j := by rw [hw']; rfl
      rcases rwInodeRead_cases (w := w) h hj m with ⟨hrefused, hread⟩ | ⟨hok, hread⟩
      · rcases rwInodeRead_cases (w := w') h hj m with ⟨_, hread'⟩ | ⟨hok', _⟩
        · rw [hread, hread']
        · rw [hw', inodeRefused_disk] at hok'
          exact absurd hrefused hok'
      · rcases rwInodeRead_cases (w := w') h hj m with ⟨hrefused', _⟩ | ⟨_, hread'⟩
        · rw [hw', inodeRefused_disk] at hrefused'
          exact absurd hrefused' hok
        · rw [hread, hread', haddr, hw']
          congr 2
          funext x
          simp only [Mem.memcpy]
          split_ifs
          · omega
          · rfl
          · rfl
    · rintro hji w rfl
      exact (inodeAddr_apart h hi hj).mpr (hne hji)
    · rintro w rfl
      exact ⟨(inTable_iff h hi).mpr (htable i (by simp)), (inTable_iff h hj).mpr (htable j (by simp))⟩

/-- On a volume whose tables end in the first 4 GiB of the device all inodes are kept apart. -/
theorem inodesRight_of_lt (h : fs.Inodes) (htables : fs.TablesApart gd) (hi : 1 ≤ i) (hj : 1 ≤ j)
    (hig : fs.inodeGroup i < fs.groupsCount) (hjg : fs.inodeGroup j < fs.groupsCount)
    (hend : ∀ g < fs.groupsCount, fs.tableStart gd g + fs.inodePerGrp * fs.inodeSize ≤ 2 ^ 32) :
    InodesRight fs gd i j := by
  have hpos := h.size_pos
  have hlt : ∀ n, fs.inodeGroup n < fs.groupsCount → fs.inodePos gd n < 2 ^ 32 := by
    intro n hn
    have := (inodePos_le gd h n).2
    have := hend _ hn
    omega
  refine (inodesRight_iff h hi hj).mpr ⟨?_, fun hne => ?_⟩
  · intro n hn
    rcases (by simpa using hn : n = i ∨ n = j) with rfl | rfl
    · rw [Nat.mod_eq_of_lt (hlt n hig)]
      exact (inodePos_le gd h n).1
    · rw [Nat.mod_eq_of_lt (hlt n hjg)]
      exact (inodePos_le gd h n).1
  · rw [Nat.mod_eq_of_lt (hlt i hig), Nat.mod_eq_of_lt (hlt j hjg)]
    exact inodePos_ne h htables hi hj hig hjg hne

end

/-! ## Two volumes -/

/-- Blocks of 4 KiB, 32768 of them in a group, and 32 inodes in a group. -/
def groupsFs (groupsCount : ℕ) : Fs where
  blksize := 4096
  inodeSize := 128
  groupsCount := groupsCount
  blkPerGroup := 32768
  inodePerGrp := 32
  firstBlockGroupNo := 1
  firstDataBlock := 0
  blockGroupDescTableSize := 4096

/-- The inode table of each group is in block 16 of it. -/
def groupsDesc : Mem := fun x =>
  if 8 ≤ x % 32 ∧ x % 32 < 12 then BitVec.ofNat 8 ((x / 32 * 32768 + 16) / 256 ^ (x % 32 - 8)) else 0

theorem groupsFs_inodes (groupsCount : ℕ) : (groupsFs groupsCount).Inodes where
  sized := ⟨2, by decide, rfl⟩
  inodeSize := ⟨0, rfl⟩
  le := by simp [groupsFs]
  inodePerGrp := by simp [groupsFs]

/-- Two inodes of the first group. -/
theorem inodesRight_iff_one : InodesRight (groupsFs 1) groupsDesc 1 2 :=
  (inodesRight_iff (groupsFs_inodes 1) (by decide) (by decide)).mpr (by decide +kernel)

/-- The first inode of group 32 stands 4 GiB behind the first inode of all, and takes its place. -/
theorem inodes_can_alias :
    ¬ ∀ (fs : Fs) (gd : Mem) (i j : ℕ), fs.Inodes → fs.TablesApart gd → 1 ≤ i → 1 ≤ j →
      fs.inodeGroup i < fs.groupsCount → fs.inodeGroup j < fs.groupsCount → InodesRight fs gd i j := by
  intro hall
  have hright := hall (groupsFs 33) groupsDesc 1 1025 (groupsFs_inodes 33) (by decide +kernel) (by decide)
    (by decide) (by decide) (by decide)
  set w : World := ⟨Mem.zero, fun _ => false, fun _ => false, groupsDesc, 0, 0, Mem.zero, 0⟩
  have hne := (inodeAddr_apart (w := w) (groupsFs_inodes 33) (by decide) (by decide)).mp
    (hright.apart (by decide) w rfl)
  exact hne (by decide +kernel)

end Shaunos.Ext2
