import Mathlib.Tactic.Ring
import Shaunos.Ext2.Write

/-!
# What `ext2_write` does to a file

Reference: `Kernel/ext2.c` (`ext2_write`, `ext2_rw_inode`).

The bytes of the file and the position end up as they should. The size does so in few cases only:
`i_size` is added to where it should be set. `SizeRight` lists the cases.

* `sizeGrowth_eq_iff` — the size comes out right exactly in the cases of `SizeRight`;
* `write_law_iff` — the whole law of a write;
* `write_can_miscount` — overwriting a byte makes a file longer.
-/

namespace Shaunos.Ext2

/-! ## The size -/

/-- The cases in which the size comes out right, for `count` turns from byte `off` of block `start`
on that end at byte `x` of the file. No block but the last may be missing. If the last one is missing,
the size was the offset in it, or 0 when it is not the first. If none is missing, the file was long
enough and the write ends with a block, or the size was where the last turn begins. -/
def SizeRight (bs : ℕ) (hole : ℕ → Bool) (size start off count x : ℕ) : Prop :=
  (∀ m, start ≤ m → m + 1 < start + count → hole m = false) ∧
  if hole (start + count - 1) then size = if count = 1 then off else 0
  else if x % bs = 0 then x ≤ size
  else size = if x / bs = start then start * bs + off else x / bs * bs

section

variable {bs : ℕ} {hole : ℕ → Bool} {fuel start off nbytes size : ℕ}

theorem turns_succ (bs fuel off nbytes : ℕ) :
    turns bs (fuel + 1) off nbytes = min fuel ((off + nbytes) / bs) + 1 := by
  unfold turns
  omega

theorem turns_one (bs off nbytes : ℕ) : turns bs 1 off nbytes = 1 := by
  rw [turns_succ, Nat.zero_min]

theorem turns_pos (bs fuel off nbytes : ℕ) : 1 ≤ turns bs (fuel + 1) off nbytes := by
  rw [turns_succ]
  exact Nat.le_add_left 1 _

/-- A block written to its end is followed by a turn, unless the loop is at its end. -/
theorem turns_full (hbs : 0 < bs) (hoff : off < bs) (hfull : bs ≤ nbytes + off) :
    turns bs (fuel + 1) off nbytes = turns bs fuel 0 (nbytes - (bs - off)) + 1 := by
  rw [turns_succ, turns, show off + nbytes = 0 + (nbytes - (bs - off)) + bs by omega,
    Nat.add_div_right _ hbs]

theorem turns_part (hpart : nbytes + off < bs) : turns bs (fuel + 1) off nbytes = 1 := by
  rw [turns_succ, Nat.div_eq_of_lt (by omega)]
  omega

/-- The fuel that is left is enough for the rest. -/
theorem fuel_full (hbs : 0 < bs) (hoff : off < bs) (hfull : bs ≤ nbytes + off)
    (hfuel : (off + nbytes + bs - 1) / bs ≤ fuel + 1) :
    (0 + (nbytes - (bs - off)) + bs - 1) / bs ≤ fuel := by
  rw [show off + nbytes + bs - 1 = (0 + (nbytes - (bs - off)) + bs - 1) + bs by omega,
    Nat.add_div_right _ hbs] at hfuel
  omega

/-- With one turn left, the rest is in one block. -/
theorem end_le_of_fuel_one (hbs : 0 < bs) (hfuel : (off + nbytes + bs - 1) / bs ≤ 0 + 1) :
    off + nbytes ≤ bs := by
  by_contra hlt
  have : 2 ≤ (off + nbytes + bs - 1) / bs := (Nat.le_div_iff_mul_le hbs).mpr (by omega)
  omega

/-- With the flag set, one turn adds the end of the write up to the offset, and more turns add more
than the end of the write. -/
theorem sizeGrowth_flagged (hbs : 0 < bs) (hoff : off < bs)
    (hfuel : (off + nbytes + bs - 1) / bs ≤ fuel + 1) :
    (turns bs (fuel + 1) off nbytes = 1 →
      sizeGrowth bs hole (fuel + 1) start off nbytes true + off = start * bs + off + nbytes) ∧
    (turns bs (fuel + 1) off nbytes ≠ 1 →
      start * bs + off + nbytes < sizeGrowth bs hole (fuel + 1) start off nbytes true) := by
  induction fuel generalizing start off nbytes with
  | zero =>
      have hone := turns_one bs off nbytes
      refine ⟨fun _ => ?_, fun hne => absurd hone hne⟩
      rw [sizeGrowth, Bool.true_or]
      have hle := end_le_of_fuel_one hbs hfuel
      split
      · rw [if_pos rfl, sizeGrowth]
        omega
      · rw [if_pos rfl]
        omega
  | succ fuel ih =>
      rw [sizeGrowth, Bool.true_or]
      by_cases hfull : bs ≤ nbytes + off
      · have hend : (start + 1) * bs + 0 + (nbytes - (bs - off)) = start * bs + off + nbytes := by
          rw [Nat.succ_mul]
          omega
        have hturns := @turns_full bs (fuel + 1) off nbytes hbs hoff hfull
        obtain ⟨h₁, h₂⟩ := @ih (start + 1) 0 (nbytes - (bs - off)) hbs
          (fuel_full hbs hoff hfull hfuel)
        have hpos := turns_pos bs fuel 0 (nbytes - (bs - off))
        refine ⟨fun hone => absurd hone (by omega), fun _ => ?_⟩
        rw [if_pos hfull, if_pos rfl]
        by_cases hone : turns bs (fuel + 1) 0 (nbytes - (bs - off)) = 1
        · have := h₁ hone
          omega
        · have := h₂ hone
          omega
      · have hone := @turns_part bs (fuel + 1) off nbytes (by omega)
        refine ⟨fun _ => ?_, fun hne => absurd hone hne⟩
        rw [if_neg hfull, if_pos rfl]
        omega

theorem sizeGrowth_of_hole {flag : Bool} (h : hole start = true) :
    sizeGrowth bs hole fuel start off nbytes flag = sizeGrowth bs hole fuel start off nbytes true := by
  cases fuel with
  | zero => rfl
  | succ fuel => simp only [sizeGrowth, h, Bool.or_true]

/-- A turn that does not reach the end of its block. -/
theorem sizeGrowth_part_iff (hempty : nbytes = 0 → off = 0) (hend : 0 < start * bs + off + nbytes)
    (hpart : nbytes + off < bs) :
    size + sizeGrowth bs hole (fuel + 1) start off nbytes false
        = max size (start * bs + off + nbytes) ↔
      SizeRight bs hole size start off 1 (start * bs + off + nbytes) := by
  have hdiv : (start * bs + off + nbytes) / bs = start := by
    rw [Nat.add_assoc]
    exact div_block (by omega)
  have hmod : (start * bs + off + nbytes) % bs = off + nbytes := by
    rw [Nat.add_assoc]
    exact mod_block (by omega)
  have hnone : ∀ m, start ≤ m → m + 1 < start + 1 → hole m = false := fun m h₁ h₂ => by omega
  rw [sizeGrowth, Bool.false_or, if_neg (by omega), SizeRight, hdiv, hmod, if_pos rfl, if_pos rfl,
    Nat.add_sub_cancel, and_iff_right hnone]
  split
  · omega
  · split <;> omega

/-- A turn that ends the write with its block. -/
theorem sizeGrowth_end_iff (hoff : off < bs) (hfull : nbytes + off = bs) :
    size + sizeGrowth bs hole 1 start off nbytes false = max size (start * bs + off + nbytes) ↔
      SizeRight bs hole size start off 1 (start * bs + off + nbytes) := by
  have hend : start * bs + off + nbytes = bs * (start + 1) := by
    rw [Nat.mul_succ, Nat.mul_comm]
    omega
  have hnone : ∀ m, start ≤ m → m + 1 < start + 1 → hole m = false := fun m h₁ h₂ => by omega
  rw [sizeGrowth, Bool.false_or, if_pos hfull.ge, sizeGrowth, SizeRight, if_pos rfl,
    Nat.add_sub_cancel, and_iff_right hnone]
  have hmod : (start * bs + off + nbytes) % bs = 0 := by rw [hend, Nat.mul_mod_right]
  rw [hmod, if_pos rfl]
  split <;> omega

/-- A first turn that is not the last and finds its block leaves the cases as they are. -/
theorem sizeRight_next {count x : ℕ} (hbs : 0 < bs) (hhole : hole start = false)
    (hx : (start + 1) * bs ≤ x) (hcount : 1 ≤ count) :
    SizeRight bs hole size start off (count + 1) x ↔ SizeRight bs hole size (start + 1) 0 count x := by
  have hdiv : start + 1 ≤ x / bs := (Nat.le_div_iff_mul_le hbs).mpr hx
  unfold SizeRight
  refine and_congr ⟨fun h m h₁ h₂ => h m (by omega) (by omega), fun h m h₁ h₂ => ?_⟩ ?_
  · by_cases hm : m = start
    · exact hm ▸ hhole
    · exact h m (by omega) (by omega)
  · rw [show start + (count + 1) - 1 = start + 1 + count - 1 by omega]
    have h₀ : (if count + 1 = 1 then off else 0) = if count = 1 then 0 else 0 := by
      rw [if_neg (by omega), ite_self]
    have h₁ : (if x / bs = start then start * bs + off else x / bs * bs)
        = if x / bs = start + 1 then (start + 1) * bs + 0 else x / bs * bs := by
      rw [if_neg (by omega)]
      split
      · rename_i heq
        rw [heq]
        rfl
      · rfl
    rw [h₀, h₁]

/-- **The size comes out right exactly in the cases of `SizeRight`.** -/
theorem sizeGrowth_eq_iff (hbs : 0 < bs) (hoff : off < bs) (hempty : nbytes = 0 → off = 0)
    (hend : 0 < start * bs + off + nbytes) (hfuel : (off + nbytes + bs - 1) / bs ≤ fuel + 1) :
    size + sizeGrowth bs hole (fuel + 1) start off nbytes false
        = max size (start * bs + off + nbytes) ↔
      SizeRight bs hole size start off (turns bs (fuel + 1) off nbytes)
        (start * bs + off + nbytes) := by
  induction fuel generalizing start off nbytes with
  | zero =>
      have hle := end_le_of_fuel_one hbs hfuel
      rw [turns_one]
      by_cases hfull : nbytes + off = bs
      · exact sizeGrowth_end_iff hoff hfull
      · exact sizeGrowth_part_iff hempty hend (by omega)
  | succ fuel ih =>
      by_cases hfull : bs ≤ nbytes + off
      · have hturns := @turns_full bs (fuel + 1) off nbytes hbs hoff hfull
        have hpos := turns_pos bs fuel 0 (nbytes - (bs - off))
        have hend' : (start + 1) * bs + 0 + (nbytes - (bs - off)) = start * bs + off + nbytes := by
          rw [Nat.succ_mul]
          omega
        by_cases hhole : hole start = true
        · -- the flag is set before the last turn: too much is added
          have hgrow := (@sizeGrowth_flagged bs hole _ start off nbytes hbs hoff hfuel).2 (by omega)
          rw [sizeGrowth_of_hole hhole]
          refine ⟨fun heq => by omega, fun hright => ?_⟩
          have hfalse := hright.1 start le_rfl (by omega)
          rw [hhole] at hfalse
          exact absurd hfalse (by simp)
        · have hfalse : hole start = false := by simpa using hhole
          have hrec := @ih (start + 1) 0 (nbytes - (bs - off)) hbs
            (fun _ => rfl) (by omega) (fuel_full hbs hoff hfull hfuel)
          rw [hend'] at hrec
          rw [hturns, sizeRight_next hbs hfalse (by rw [← hend']; omega) hpos, ← hrec]
          have hgrow : sizeGrowth bs hole (fuel + 1 + 1) start off nbytes false
              = sizeGrowth bs hole (fuel + 1) (start + 1) 0 (nbytes - (bs - off)) false := by
            rw [sizeGrowth, hfalse, Bool.or_self, if_pos hfull, if_neg (by simp), Nat.zero_add]
          rw [hgrow]
      · rw [turns_part (by omega)]
        exact sizeGrowth_part_iff hempty hend (by omega)

end

/-! ## Inodes on disk -/

/-- The inode in the inode table. -/
def diskInode (fs : Fs) (w : World) (ino : ℕ) : Mem :=
  match inodeToBlock fs w ino with
  | none => Mem.zero
  | some (b, off) => fun i => w.block fs b (off + i)

/-- The inode lies in one block of the table, within reach and outside `R`. -/
def InodePlace (fs : Fs) (R : Set ℕ) (w : World) (ino b off : ℕ) : Prop :=
  inodeToBlock fs w ino = some (b, off) ∧ off + fs.inodeSize ≤ fs.blksize ∧ fs.Addressable b ∧ b ∉ R

section

variable {fs : Fs} {R S : Set ℕ} {w w' : World} {ino j b b' off off' : ℕ} {m buf inode : Mem}

theorem Frame.inodeToBlock (h : Frame fs S w w') (ino : ℕ) :
    Ext2.inodeToBlock fs w' ino = Ext2.inodeToBlock fs w ino := by
  unfold Ext2.inodeToBlock
  simp only [h.inodeTblStart]

theorem diskInode_eq (h : inodeToBlock fs w ino = some (b, off)) :
    diskInode fs w ino = fun i => w.block fs b (off + i) := by
  rw [diskInode, h]

/-- An inode that is read is the one on disk. -/
theorem rwInodeRead_eq_some (hs : fs.Sized) (hplace : InodePlace fs R w ino b off)
    (h : rwInodeRead fs w ino buf = some (some m)) :
    ∀ i < fs.inodeSize, m i = diskInode fs w ino i := by
  obtain ⟨hto, hin, -, -⟩ := hplace
  unfold rwInodeRead at h
  rw [hto] at h
  simp only [Option.bind_eq_bind, Option.bind_some, Option.pure_def, Option.some.injEq] at h
  obtain ⟨tmp, htmp, rfl⟩ := Option.map_eq_some_iff.mp h
  intro i hi
  rw [diskInode_eq hto, Mem.memcpy, if_pos (by omega), Nat.sub_zero]
  exact rwBlockRead_eq_some hs htmp _ (by omega)

/-- An inode keeps its bytes when its block is not touched. -/
theorem Frame.diskInode (h : Frame fs S w w') (hplace : InodePlace fs R w ino b off) (hb : b ∉ S) :
    ∀ i < fs.inodeSize, Ext2.diskInode fs w' ino i = Ext2.diskInode fs w ino i := by
  obtain ⟨hto, hin, haddr, -⟩ := hplace
  intro i hi
  rw [diskInode_eq hto, diskInode_eq ((h.inodeToBlock ino).trans hto)]
  exact h.block b haddr hb _ (by omega)

/-- An inode that is written changes its own bytes in its block. -/
theorem rwInodeWrite_eq_some (hs : fs.Sized) (hplace : InodePlace fs R w ino b off)
    (h : rwInodeWrite fs w ino inode = some (some w')) :
    Frame fs {b} w w' ∧ (∀ i < fs.inodeSize, diskInode fs w' ino i = inode i) ∧
      ∀ i < fs.blksize, i < off ∨ off + fs.inodeSize ≤ i → w'.block fs b i = w.block fs b i := by
  obtain ⟨hto, hin, haddr, -⟩ := hplace
  unfold rwInodeWrite at h
  rw [hto] at h
  simp only [Option.bind_eq_bind, Option.bind_some, Option.pure_def, Option.some.injEq] at h
  obtain ⟨tmp, htmp, hwrite⟩ := Option.bind_eq_some_iff.mp h
  obtain ⟨hframe, -, -, hself⟩ := frame_rwBlockWrite hs haddr hwrite
  refine ⟨hframe, fun i hi => ?_, fun i hi hout => ?_⟩
  · rw [diskInode_eq ((hframe.inodeToBlock ino).trans hto)]
    simp only
    rw [hself _ (by omega), Mem.memcpy, if_pos (by omega)]
    congr 1
    omega
  · rw [hself i hi, Mem.memcpy, if_neg (by omega)]
    exact rwBlockRead_eq_some hs htmp i hi

/-- Other inodes keep their bytes. -/
theorem diskInode_of_apart (hs : fs.Sized) (hplace : InodePlace fs R w ino b off)
    (hplace' : InodePlace fs R w j b' off')
    (hapart : b' = b → off' + fs.inodeSize ≤ off ∨ off + fs.inodeSize ≤ off')
    (h : rwInodeWrite fs w ino inode = some (some w')) :
    ∀ i < fs.inodeSize, diskInode fs w' j i = diskInode fs w j i := by
  obtain ⟨hframe, -, hrest⟩ := rwInodeWrite_eq_some hs hplace h
  by_cases hb : b' = b
  · subst hb
    obtain ⟨hto, hin, -, -⟩ := hplace'
    intro i hi
    rw [diskInode_eq hto, diskInode_eq ((hframe.inodeToBlock j).trans hto)]
    have := hapart rfl
    exact hrest _ (by omega) (by omega)
  · exact hframe.diskInode hplace' hb

/-- An inode of at least 128 bytes has its map and its size in them. -/
theorem sameMap_of_bytes (hsize : 128 ≤ fs.inodeSize) (h : ∀ i < fs.inodeSize, m i = inode i) :
    SameMap inode m ∧ iSize m = iSize inode :=
  ⟨fun _ _ => Mem.readLE_congr fun x _ _ => h x (by omega),
    Mem.readLE_congr fun x _ _ => h x (by omega)⟩

end

/-! ## The law of a write -/

/-- The file that is written and the others lie on the volume side by side: no block belongs to two
files or to a file and the inode table, none is in the reserve, and inodes do not overlap. -/
structure Files (fs : Fs) (R : Set ℕ) (w : World) (ino : ℕ) (others : Set ℕ) : Prop where
  sized : fs.Sized
  inodeSize : 128 ≤ fs.inodeSize
  place : ∀ j ∈ insert ino others, ∃ b off, InodePlace fs R w j b off ∧
    ∀ k ∈ insert ino others, b ∉ fileBlocks fs w (diskInode fs w k)
  apart : ∀ j ∈ others, ∀ b off b' off', inodeToBlock fs w ino = some (b, off) →
    inodeToBlock fs w j = some (b', off') → b' = b →
      off' + fs.inodeSize ≤ off ∨ off + fs.inodeSize ≤ off'
  filed : ∀ j ∈ insert ino others, Filed fs R w (diskInode fs w j)
  disjoint : ∀ j ∈ others,
    Disjoint (fileBlocks fs w (diskInode fs w ino)) (fileBlocks fs w (diskInode fs w j))

/-- What a write of `nbytes` bytes from `buf` is for: the bytes of the file from the position on are
those of the buffer, the others stay, the file is filled up with zeros to the position, the sizes and
the position follow, and no other file changes. -/
structure WriteLaw (fs : Fs) (w w' : World) (file file' : File) (buf : Mem) (nbytes : ℕ)
    (others : Set ℕ) : Prop where
  bytes : ∀ x < max (iSize (diskInode fs w file.vId)) (file.currPos + nbytes),
    fileByte fs w' (diskInode fs w' file.vId) x =
      if file.currPos ≤ x ∧ x < file.currPos + nbytes then buf (x - file.currPos)
      else if x < iSize (diskInode fs w file.vId) then fileByte fs w (diskInode fs w file.vId) x
      else 0
  iSize : iSize (diskInode fs w' file.vId)
    = max (iSize (diskInode fs w file.vId)) (file.currPos + nbytes)
  vSize : file'.vSize = max (Ext2.iSize (diskInode fs w file.vId)) (file.currPos + nbytes)
  endPos : file'.endPos = max (Ext2.iSize (diskInode fs w file.vId)) (file.currPos + nbytes)
  currPos : file'.currPos = file.currPos + nbytes
  other : ∀ j ∈ others, Ext2.iSize (diskInode fs w' j) = Ext2.iSize (diskInode fs w j) ∧
    ∀ x, fileByte fs w' (diskInode fs w' j) x = fileByte fs w (diskInode fs w j) x

/-- The turns of a write at a position. -/
def writeTurns (fs : Fs) (pos nbytes : ℕ) : ℕ :=
  turns fs.blksize ((nbytes + pos + fs.blksize - 1) / fs.blksize) (pos % fs.blksize) nbytes

/-- What a write needs from the volume: all blocks it goes over are mapped, or what is missing is in
stock. -/
def WriteServed (fs : Fs) (blocksCnt : ℕ) (B : Prop) (R : Set ℕ) (cost : ℕ → ℕ) (w : World)
    (inode : Mem) (pos nbytes : ℕ) : Prop :=
  (∀ m, pos / fs.blksize ≤ m → m < pos / fs.blksize + writeTurns fs pos nbytes →
    ∃ b, b ≠ 0 ∧ realBlockRead fs w inode m = some b) ∨
  (Stock fs blocksCnt B R (∑ m ∈ Finset.Ico (pos / fs.blksize)
      (pos / fs.blksize + writeTurns fs pos nbytes), cost m) w ∧
    ∀ m, pos / fs.blksize ≤ m → m < pos / fs.blksize + writeTurns fs pos nbytes →
      Served fs w inode B (cost m) m)

/-- The blocks that are not mapped. -/
def holes (fs : Fs) (w : World) (inode : Mem) (m : ℕ) : Bool :=
  realBlockRead fs w inode m = some 0

section

variable {fs : Fs} {blocksCnt now nbytes : ℕ} {B : Prop} {R others : Set ℕ} {cost : ℕ → ℕ}
  {w w' : World} {file file' : File} {buf inode m : Mem}

theorem SameMap.loopServed (h : SameMap inode m) {pos : ℕ}
    (hserved : WriteServed fs blocksCnt B R cost w inode pos nbytes) {s : WriteState}
    (hw : s.w = w) (hinode : s.inode = m) (hflag : s.newBlockFlag = false)
    (hstart : s.blockStart = pos / fs.blksize) :
    LoopServed fs blocksCnt B R cost (writeTurns fs pos nbytes) s := by
  subst hw hinode
  rcases hserved with hall | ⟨hstock, hall⟩
  · refine Or.inl ⟨hflag, fun k h₁ h₂ => ?_⟩
    rw [h.realBlockRead]
    rw [hstart] at h₁ h₂
    exact hall k h₁ h₂
  · refine Or.inr ⟨by rw [hstart]; exact hstock, fun k h₁ h₂ => ?_⟩
    rw [hstart] at h₁ h₂
    have hk := hall k h₁ h₂
    unfold Served at hk ⊢
    rw [h.realBlockRead, h.wayComplete]
    exact hk

/-- `ext2_write` step by step, when nothing fails. -/
theorem write_cases (hn : 0 < nbytes) (hwrap : file.currPos + nbytes + fs.blksize ≤ 2 ^ 32)
    (hpos : 1024 ≤ fs.blksize) (h : write fs w now file buf nbytes = some (0, true, file', w')) :
    ∃ m s, rwInodeRead fs w file.vId w.junk = some (some m) ∧
      writeLoop fs buf ((nbytes + file.currPos + fs.blksize - 1) / fs.blksize)
        { w, inode := m, tmpBuf := w.junk.memset 0 0 fs.blksize, newBlockFlag := false,
          blockStart := file.currPos / fs.blksize, currPos := file.currPos, nbytes, bufPos := 0 }
        = some (none, s) ∧
      rwInodeWrite fs s.w file.vId (setTimes s.inode now) = some (some w') ∧
      file' = { file with
        currPos := s.currPos
        endPos := iSize (setTimes s.inode now)
        vSize := iSize (setTimes s.inode now) } := by
  unfold write at h
  simp only at h
  rw [if_neg (by omega), if_neg (by unfold minusOne; omega),
    Nat.mod_eq_of_lt (show nbytes + file.currPos + fs.blksize - 1 < 2 ^ 32 by omega)] at h
  obtain ⟨read, hread, h⟩ := Option.bind_eq_some_iff.mp h
  obtain ⟨⟨error, s⟩, hloop, h⟩ := Option.bind_eq_some_iff.mp h
  cases error with
  | some retval =>
      simp only [Option.pure_def, Option.some.injEq, Prod.mk.injEq] at h
      exact absurd h.2.1 (by simp)
  | none =>
      obtain ⟨written, hwrite, h⟩ := Option.bind_eq_some_iff.mp h
      simp only [Option.pure_def, Option.some.injEq, Prod.mk.injEq, true_and, Bool.and_eq_true,
        Option.isSome_iff_exists] at h
      obtain ⟨⟨⟨m, rfl⟩, ⟨v, rfl⟩⟩, rfl, rfl⟩ := h
      exact ⟨m, s, hread, hloop, hwrite, rfl⟩

theorem setTimes_spec (inode : Mem) (now : ℕ) :
    SameMap inode (setTimes inode now) ∧ iSize (setTimes inode now) = iSize inode := by
  refine ⟨fun s _ => ?_, ?_⟩
  · unfold setTimes iBlock
    rw [Mem.get32_set32_of_disjoint (by omega), Mem.get32_set32_of_disjoint (by omega)]
  · unfold setTimes iSize
    rw [Mem.get32_set32_of_disjoint (by omega), Mem.get32_set32_of_disjoint (by omega)]

/-- **What a write does**, when nothing fails: the bytes, the sizes, the position, other files. -/
theorem write_spec (hfiles : Files fs R w file.vId others) (hn : 0 < nbytes)
    (hwrap : file.currPos + nbytes + fs.blksize ≤ 2 ^ 32)
    (hserved : WriteServed fs blocksCnt B R cost w (diskInode fs w file.vId) file.currPos nbytes)
    (h : write fs w now file buf nbytes = some (0, true, file', w')) :
    (∀ x, fileByte fs w' (diskInode fs w' file.vId) x =
      if file.currPos ≤ x ∧ x < file.currPos + nbytes then buf (x - file.currPos)
      else fileByte fs w (diskInode fs w file.vId) x) ∧
    iSize (diskInode fs w' file.vId) = (iSize (diskInode fs w file.vId) + sizeGrowth fs.blksize
      (holes fs w (diskInode fs w file.vId)) ((nbytes + file.currPos + fs.blksize - 1) / fs.blksize)
      (file.currPos / fs.blksize) (file.currPos % fs.blksize) nbytes false) % 2 ^ 32 ∧
    file'.vSize = iSize (diskInode fs w' file.vId) ∧
    file'.endPos = iSize (diskInode fs w' file.vId) ∧
    file'.currPos = file.currPos + nbytes ∧
    ∀ j ∈ others, iSize (diskInode fs w' j) = iSize (diskInode fs w j) ∧
      ∀ x, fileByte fs w' (diskInode fs w' j) x = fileByte fs w (diskInode fs w j) x := by
  have hs := hfiles.sized
  have hpos := hs.pos
  have hino : file.vId ∈ insert file.vId others := Set.mem_insert _ _
  obtain ⟨m, s, hread, hloop, hwrite, rfl⟩ := write_cases hn hwrap hpos h
  obtain ⟨b, off, hplace, htable⟩ := hfiles.place _ hino
  obtain ⟨hmap, hsize⟩ := sameMap_of_bytes hfiles.inodeSize (rwInodeRead_eq_some hs hplace hread)
  have hdiv : (file.currPos % fs.blksize + nbytes + fs.blksize - 1) / fs.blksize
      ≤ (nbytes + file.currPos + fs.blksize - 1) / fs.blksize := by
    have := Nat.mod_le file.currPos fs.blksize
    exact Nat.div_le_div_right (by omega)
  -- the loop
  obtain ⟨⟨R', hgrown⟩, hcurr, hsize', hbytes⟩ := @writeLoop_spec _ _ _ _ _ _ _ _ hs
    _ (holes fs w (diskInode fs w file.vId)) (hmap.filed (hfiles.filed _ hino)) rfl hwrap hdiv
    (fun k _ => by rw [holes, hmap.realBlockRead])
    (hmap.loopServed hserved rfl rfl rfl rfl) hloop
  simp only at hgrown hcurr hsize' hbytes
  have hframe : Frame fs (fileBlocks fs w (diskInode fs w file.vId) ∪ R) w s.w := by
    rw [← hmap.fileBlocks]
    exact hgrown.frame
  have hb : b ∉ fileBlocks fs w (diskInode fs w file.vId) ∪ R := fun hmem =>
    hmem.elim (htable _ hino) hplace.2.2.2
  have hplace' : ∀ {j c o}, InodePlace fs R w j c o → InodePlace fs R s.w j c o := fun hp =>
    ⟨(hframe.inodeToBlock _).trans hp.1, hp.2⟩
  -- the inode
  obtain ⟨hframe', hself, -⟩ := rwInodeWrite_eq_some hs (hplace' hplace) hwrite
  obtain ⟨htimes, htsize⟩ := setTimes_spec s.inode now
  obtain ⟨hmap', hisize'⟩ := sameMap_of_bytes hfiles.inodeSize hself
  have hall : Frame fs (insert b (fileBlocks fs w (diskInode fs w file.vId) ∪ R)) w w' :=
    (hframe.mono (Set.subset_insert _ _)).trans (hframe'.mono (by simp))
  refine ⟨fun x => ?_, ?_, by rw [hisize'], by rw [hisize'], hcurr, fun j hj => ?_⟩
  · have hout : Disjoint {b} (fileBlocks fs s.w s.inode) := by
      rw [Set.disjoint_singleton_left]
      intro hmem
      rcases hgrown.blocks hmem with hmem | hmem
      · rw [hmap.fileBlocks] at hmem
        exact htable _ hino hmem
      · exact hplace.2.2.2 hmem.1
    rw [hmap'.fileByte, htimes.fileByte, hframe'.fileByte_of_disjoint hs hgrown.filed hout, hbytes,
      Nat.zero_add, hmap.fileByte]
  · rw [hisize', htsize, hsize', hsize]
  · have hj' : j ∈ insert file.vId others := Set.mem_insert_of_mem _ hj
    obtain ⟨c, o, hplacej, htablej⟩ := hfiles.place j hj'
    have hc : c ∉ fileBlocks fs w (diskInode fs w file.vId) ∪ R := fun hmem =>
      hmem.elim (htablej _ hino) hplacej.2.2.2
    have hbytesj : ∀ i < fs.inodeSize, diskInode fs w' j i = diskInode fs w j i := fun i hi =>
      (diskInode_of_apart hs (hplace' hplace) (hplace' hplacej)
        (hfiles.apart j hj b off c o hplace.1 hplacej.1) hwrite i hi).trans
        (hframe.diskInode hplacej hc i hi)
    obtain ⟨hmapj, hsizej⟩ := sameMap_of_bytes hfiles.inodeSize hbytesj
    refine ⟨hsizej, fun x => ?_⟩
    rw [hmapj.fileByte]
    apply hall.fileByte_of_disjoint hs (hfiles.filed j hj')
    rw [Set.disjoint_left]
    rintro d (rfl | hd | hd) hmem
    · exact htable j hj' hmem
    · exact Set.disjoint_left.mp (hfiles.disjoint j hj) hd hmem
    · exact ((hfiles.filed j hj').blocks hmem).2 hd

/-- **The law of a write.** When nothing fails, it holds if the size is in one of the cases of
`SizeRight` and the bytes between the old size and the position are 0; and only then, as long as what
is added to the size does not wrap around. -/
theorem write_law_iff (hfiles : Files fs R w file.vId others) (hn : 0 < nbytes)
    (hwrap : file.currPos + nbytes + fs.blksize ≤ 2 ^ 32)
    (hserved : WriteServed fs blocksCnt B R cost w (diskInode fs w file.vId) file.currPos nbytes)
    (h : write fs w now file buf nbytes = some (0, true, file', w')) :
    let inode := diskInode fs w file.vId
    let right := SizeRight fs.blksize (holes fs w inode) (iSize inode) (file.currPos / fs.blksize)
      (file.currPos % fs.blksize) (writeTurns fs file.currPos nbytes) (file.currPos + nbytes)
    let tail := ∀ x, iSize inode ≤ x → x < file.currPos → fileByte fs w inode x = 0
    (right ∧ tail → WriteLaw fs w w' file file' buf nbytes others) ∧
    (iSize inode + sizeGrowth fs.blksize (holes fs w inode)
        ((nbytes + file.currPos + fs.blksize - 1) / fs.blksize) (file.currPos / fs.blksize)
        (file.currPos % fs.blksize) nbytes false < 2 ^ 32 →
      (WriteLaw fs w w' file file' buf nbytes others ↔ right ∧ tail)) := by
  intro inode right tail
  have hpos := hfiles.sized.pos
  obtain ⟨hbytes, hsize, hv, he, hc, ho⟩ := write_spec hfiles hn hwrap hserved h
  have hend : file.currPos / fs.blksize * fs.blksize + file.currPos % fs.blksize + nbytes
      = file.currPos + nbytes := by
    rw [Nat.mul_comm, Nat.div_add_mod]
  obtain ⟨fuel, hfuel⟩ : ∃ fuel, (nbytes + file.currPos + fs.blksize - 1) / fs.blksize = fuel + 1 :=
    Nat.exists_eq_succ_of_ne_zero (Nat.pos_iff_ne_zero.mp (Nat.div_pos (by omega) (by omega)))
  have hdiv : (file.currPos % fs.blksize + nbytes + fs.blksize - 1) / fs.blksize ≤ fuel + 1 := by
    rw [← hfuel]
    have := Nat.mod_le file.currPos fs.blksize
    exact Nat.div_le_div_right (by omega)
  have hiff := @sizeGrowth_eq_iff _ (holes fs w inode) _ (file.currPos / fs.blksize) _ _
    (iSize inode) (by omega)
    (Nat.mod_lt file.currPos (show 0 < fs.blksize by omega)) (fun h0 => absurd h0 (by omega))
    (by omega) hdiv
  rw [hend, ← hfuel] at hiff
  have hlt : max (iSize inode) (file.currPos + nbytes) < 2 ^ 32 :=
    max_lt (Mem.get32_lt _ _) (by omega)
  have hlaw : right ∧ tail → WriteLaw fs w w' file file' buf nbytes others := by
    rintro ⟨hright, htail⟩
    have hgrow := hiff.mpr hright
    have hnew : iSize (diskInode fs w' file.vId) = max (iSize inode) (file.currPos + nbytes) := by
      rw [hsize, hgrow, Nat.mod_eq_of_lt hlt]
    refine ⟨fun x hxm => ?_, hnew, hv.trans hnew, he.trans hnew, hc, ho⟩
    rw [hbytes]
    split
    · rfl
    · rename_i hout
      split
      · rfl
      · rename_i hx
        have hxp : x < file.currPos + nbytes := (lt_max_iff.mp hxm).resolve_left hx
        exact htail x (Nat.le_of_not_lt hx) (Nat.lt_of_not_le fun hp => hout ⟨hp, hxp⟩)
  refine ⟨hlaw, fun hgrow => ⟨fun law => ⟨?_, fun x h₁ h₂ => ?_⟩, hlaw⟩⟩
  · apply hiff.mp
    rw [← law.iSize, hsize, Nat.mod_eq_of_lt hgrow]
  · have hx := law.bytes x (lt_max_of_lt_right (by omega))
    have hout : ¬ (file.currPos ≤ x ∧ x < file.currPos + nbytes) := fun hin => by omega
    rw [hbytes, if_neg hout, if_neg hout, if_neg (Nat.not_lt.mpr h₁)] at hx
    exact hx

end

/-! ## A file of one block -/

/-- A volume with a file of the given size, inode 11, whose only block is block 20. -/
def oneFile (size : ℕ) : World :=
  { almostFull 1 0 with
    disk := ((Mem.zero.set16 9472 0x81A4).set32 9476 size).set32 9512 20
    groupDesc := (almostFull 1 0).groupDesc.set32 8 4 }

theorem inodeToBlock_oneFile (size : ℕ) :
    inodeToBlock (almostFullFs 1 0) (oneFile size) 11 = some (4, 1280) := by
  have htbl : inodeTblStart (oneFile size).groupDesc 0 = 4 := Mem.get32_set32_self _ _ _
  rw [inodeToBlock, if_neg (by omega)]
  simp only [almostFullFs]
  rw [htbl]
  norm_num

theorem oneFile_byte (size x : ℕ) :
    diskInode (almostFullFs 1 0) (oneFile size) 11 x = (oneFile size).disk (9472 + x) := by
  rw [diskInode_eq (inodeToBlock_oneFile size)]
  have haddr : (almostFullFs 1 0).Addressable 4 := by
    unfold Fs.Addressable almostFullFs
    norm_num
  simp only [World.block, (almostFullFs_sized le_rfl).sector_eq haddr]
  congr 1
  simp only [almostFullFs]
  omega

theorem iBlock_oneFile (size : ℕ) {s : ℕ} (hs : s < 15) :
    iBlock (diskInode (almostFullFs 1 0) (oneFile size) 11) s = if s = 0 then 20 else 0 := by
  have hdisk : iBlock (diskInode (almostFullFs 1 0) (oneFile size) 11) s
      = (oneFile size).disk.get32 (9512 + 4 * s) := by
    apply Mem.readLE_shift
    intro i hi
    rw [oneFile_byte]
    congr 1
    omega
  rw [hdisk]
  simp only [oneFile]
  split
  · rename_i h0
    subst h0
    exact Mem.get32_set32_self _ _ _
  · rw [Mem.get32_set32_of_disjoint (by omega), Mem.get32_set32_of_disjoint (by omega),
      Mem.get32_set16_of_disjoint (by omega)]
    rfl

theorem iSize_oneFile {size : ℕ} (hsize : size < 2 ^ 32) :
    iSize (diskInode (almostFullFs 1 0) (oneFile size) 11) = size := by
  have hdisk : iSize (diskInode (almostFullFs 1 0) (oneFile size) 11)
      = (oneFile size).disk.get32 9476 := by
    apply Mem.readLE_shift
    intro i hi
    rw [oneFile_byte]
    congr 1
    omega
  rw [hdisk]
  simp only [oneFile]
  rw [Mem.get32_set32_of_disjoint (by omega), Mem.get32_set32_self, Nat.mod_eq_of_lt hsize]

theorem oneFile_files (size : ℕ) : Files (almostFullFs 1 0) ∅ (oneFile size) 11 ∅ := by
  have hs : (almostFullFs 1 0).Sized := almostFullFs_sized le_rfl
  have haddr : ∀ b < 64, (almostFullFs 1 0).Addressable b := fun b hb => by
    unfold Fs.Addressable almostFullFs
    simp only
    omega
  obtain ⟨hfiled, hind, hread⟩ := @filed_of_direct _ (oneFile size) ∅
    (diskInode (almostFullFs 1 0) (oneFile size) 11) hs
    (fun s h₁ h₂ => by rw [iBlock_oneFile size h₂, if_neg (by omega)])
    (fun s hs hne => by
      rw [iBlock_oneFile size (by omega)] at hne ⊢
      split
      · exact ⟨haddr 20 (by omega), Set.notMem_empty _⟩
      · rename_i h0
        rw [if_neg h0] at hne
        exact absurd rfl hne)
    (fun s hs t ht hne heq => by
      rw [iBlock_oneFile size (by omega), iBlock_oneFile size (by omega)] at heq
      rw [iBlock_oneFile size (by omega)] at hne
      by_cases h0 : s = 0
      · subst h0
        by_cases ht0 : t = 0
        · exact ht0.symm
        · rw [if_pos rfl, if_neg ht0] at heq
          exact absurd heq (by omega)
      · rw [if_neg h0] at hne
        exact absurd rfl hne)
  refine ⟨hs, by simp [almostFullFs], fun j hj => ?_, fun j hj => absurd hj (Set.notMem_empty j),
    fun j hj => ?_, fun j hj => absurd hj (Set.notMem_empty j)⟩
  · obtain rfl : j = 11 := by simpa using hj
    refine ⟨4, 1280, ⟨inodeToBlock_oneFile size, by simp [almostFullFs], haddr 4 (by omega),
      Set.notMem_empty _⟩, fun k hk => ?_⟩
    obtain rfl : k = 11 := by simpa using hk
    rintro (hmem | ⟨hb0, n, hn⟩)
    · rw [hind] at hmem
      exact absurd hmem (Set.notMem_empty 4)
    · obtain ⟨hlt, heq⟩ := hread n 4 hb0 hn
      rw [iBlock_oneFile size (by omega)] at heq
      split at heq <;> omega
  · obtain rfl : j = 11 := by simpa using hj
    exact hfiled

/-- The file of inode 11, opened at a position. -/
def fileAt (size pos : ℕ) : File := ⟨11, size, pos, size⟩

/-- Three bytes are appended to a file of five. -/
theorem write_law_iff_append :
    ∃ file' w', write (almostFullFs 1 0) (oneFile 5) 0 (fileAt 5 5) Mem.zero 3
        = some (0, true, file', w') ∧
      WriteLaw (almostFullFs 1 0) (oneFile 5) w' (fileAt 5 5) file' Mem.zero 3 ∅ := by
  have hrun : (write (almostFullFs 1 0) (oneFile 5) 0 (fileAt 5 5) Mem.zero 3).map
      (fun r => (r.1, r.2.1)) = some (0, true) := by
    decide +kernel
  obtain ⟨⟨ret, io, file', w'⟩, hwrite, heq⟩ := Option.map_eq_some_iff.mp hrun
  obtain ⟨rfl, rfl⟩ := Prod.mk.inj heq
  have hmapped : realBlockRead (almostFullFs 1 0) (oneFile 5)
      (diskInode (almostFullFs 1 0) (oneFile 5) 11) 0 = some 20 := by
    decide +kernel
  have hturns : writeTurns (almostFullFs 1 0) 5 3 = 1 := by decide
  refine ⟨file', w', hwrite, (@write_law_iff _ 64 _ _ True _ _ (fun _ => 0) _ _ _ _ _
    (oneFile_files 5) (by omega) (by norm_num [fileAt, almostFullFs])
    (Or.inl fun m h₁ h₂ => ?_) hwrite).1 ⟨?_, fun x h₁ h₂ => ?_⟩⟩
  · have hm : m = 0 := by
      simp only [fileAt] at h₂
      rw [hturns] at h₂
      simp only [almostFullFs] at h₂
      omega
    subst hm
    exact ⟨20, by omega, hmapped⟩
  · simp only [fileAt]
    rw [hturns, iSize_oneFile (by omega)]
    have hhole : holes (almostFullFs 1 0) (oneFile 5)
        (diskInode (almostFullFs 1 0) (oneFile 5) 11) 0 = false := by
      rw [holes, hmapped]
      rfl
    refine ⟨fun m h₁ h₂ => by omega, ?_⟩
    simp only [almostFullFs] at hhole ⊢
    rw [show 5 / (1024 * 2 ^ 1) + 1 - 1 = 0 by norm_num, hhole]
    norm_num
  · simp only [fileAt] at h₁ h₂
    rw [iSize_oneFile (by omega)] at h₁
    omega

/-- One byte of a file of five is overwritten, and the file has six. -/
theorem write_can_miscount :
    ¬ ∀ (fs : Fs) (w w' : World) (now nbytes : ℕ) (file file' : File) (buf : Mem) (others : Set ℕ),
      Files fs ∅ w file.vId others → 0 < nbytes → file.currPos + nbytes + fs.blksize ≤ 2 ^ 32 →
      write fs w now file buf nbytes = some (0, true, file', w') →
      WriteLaw fs w w' file file' buf nbytes others := by
  intro hall
  have hrun : (write (almostFullFs 1 0) (oneFile 5) 0 (fileAt 5 0) Mem.zero 1).map
      (fun r => (r.1, r.2.1, r.2.2.1.vSize)) = some (0, true, 6) := by
    decide +kernel
  obtain ⟨⟨ret, io, file', w'⟩, hwrite, heq⟩ := Option.map_eq_some_iff.mp hrun
  simp only [Prod.mk.injEq] at heq
  obtain ⟨rfl, rfl, hsize⟩ := heq
  have hlaw := hall _ _ w' 0 1 (fileAt 5 0) file' Mem.zero ∅ (oneFile_files 5) (by omega)
    (by norm_num [fileAt, almostFullFs]) hwrite
  have hv := hlaw.vSize
  rw [hsize] at hv
  simp only [fileAt] at hv
  rw [iSize_oneFile (by omega)] at hv
  omega

end Shaunos.Ext2
