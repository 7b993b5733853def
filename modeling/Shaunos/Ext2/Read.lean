import Shaunos.Ext2.Delete
import Shaunos.Ext2.MapLaw
import Shaunos.Ext2.WriteLaw

/-!
# `ext2_read`

Reference: `Kernel/ext2.c` (`ext2_read`, `ext2_inode_read_block`).

The read goes block by block from the position of the file and stops when `count` bytes are copied or
the block is reached that was computed as the last one. Both are computed in 32 bits, and `count` is
an `int`: past the end of the file it is negative, and if the position still lies in the last block
of the file, that many bytes are copied.

* `readLoop_spec` — the bytes and the position after the loop;
* `read_right_iff` — when `ext2_read` reads what is in the file.
-/

namespace Shaunos.Ext2

/-! ## Definitions -/

/-- The local variables of `ext2_read`, with the state they refer to. -/
structure ReadState where
  tmpBuf : Mem
  buf : Mem
  /-- How far `buf` has been advanced. -/
  bufPos : ℕ
  currPos : ℕ
  count : ℤ

/-- A turn of the loop. The length is a `size_t` in `memcpy`: a negative one leaves the memory of the
caller, and there is no result. -/
def readStep (fs : Fs) (w : World) (inode : Mem) (blockNr : ℕ) (s : ReadState) :
    Option (Flow × ReadState) :=
  let (retval, tmpBuf) := inodeReadBlock fs w inode blockNr s.tmpBuf
  if retval = minusOne then some (.fail retval, s)
  else
    let tmpBuf := if retval = 0 then tmpBuf.memset 0 0 fs.blksize else tmpBuf
    let bufOffset := s.currPos % fs.blksize
    let blockOffset := fs.blksize - bufOffset
    if s.count > blockOffset then
      some (.next,
        { tmpBuf
          buf := s.buf.memcpy s.bufPos tmpBuf bufOffset blockOffset
          bufPos := s.bufPos + blockOffset
          currPos := (s.currPos + blockOffset) % 2 ^ 32
          count := s.count - blockOffset })
    else if s.count < 0 then none
    else
      let count := s.count.toNat
      some (.last,
        { tmpBuf
          buf := s.buf.memcpy s.bufPos tmpBuf bufOffset count
          bufPos := s.bufPos + count
          currPos := (s.currPos + count) % 2 ^ 32
          count := s.count })

/-- `for (; block_nr < block_end; )`: the state, and `retval` if the loop was left by an error. -/
def readLoop (fs : Fs) (w : World) (inode : Mem) : (fuel : ℕ) → (blockNr : ℕ) → ReadState →
    Option (Option ℕ × ReadState)
  | 0, _, s => some (none, s)
  | fuel + 1, blockNr, s => do
      let (flow, s) ← readStep fs w inode blockNr s
      match flow with
      | .next => readLoop fs w inode fuel (blockNr + 1) s
      | .last => return (none, s)
      | .fail retval => return (some retval, s)

/-- `count`, as it is first assigned. -/
def readCount (file : File) (nbytes : ℕ) : ℕ :=
  if (nbytes + file.currPos) % 2 ^ 32 ≥ file.vSize then
    (file.vSize + 2 ^ 32 - file.currPos) % 2 ^ 32
  else nbytes

/-- `block_end`. -/
def readEnd (fs : Fs) (file : File) (nbytes : ℕ) : ℕ :=
  (readCount file nbytes + file.currPos + fs.blksize - 1) % 2 ^ 32 / fs.blksize

/-- `ext2_read`, for a buffer that is not `NULL`: its result, the file, the buffer and the volume. An
inode that cannot be read goes unnoticed, since `-EIO`, which is -5, is compared with -1. -/
def read (fs : Fs) (w : World) (now : ℕ) (file : File) (buf : Mem) (nbytes : ℕ) :
    Option (ℕ × File × Mem × World) :=
  let blockStart := file.currPos / fs.blksize
  if nbytes = 0 then some (0, file, buf, w)
  else do
    let count := toInt32 (readCount file nbytes)
    let blockEnd := readEnd fs file nbytes
    let inode := setTimes ((← rwInodeRead fs w file.vId w.junk).getD w.junk) now
    let (error, s) ← readLoop fs w inode (blockEnd - blockStart) blockStart
      { tmpBuf := w.junk, buf, bufPos := 0, currPos := file.currPos, count }
    match error with
    | some retval => return (retval, file, s.buf, w)
    | none =>
        let newFile := { file with currPos := s.currPos }
        match ← rwInodeWrite fs w file.vId inode with
        | none => return (2 ^ 32 - 5, newFile, s.buf, w)
        | some w => return ((s.currPos + 2 ^ 32 - file.currPos) % 2 ^ 32, newFile, s.buf, w)

/-! ## Blocks that can be read -/

/-- Every transfer of a block succeeds. -/
structure NoErrors (fs : Fs) (w : World) : Prop where
  read : ∀ s, w.badRead s = false
  write : ∀ s, w.badWrite s = false
  blksize : fs.blksize ≤ 65536

/-- No logical block is mapped to the number that stands for an error. -/
def NumbersOk (fs : Fs) (w : World) (inode : Mem) : Prop :=
  ∀ n b, realBlockRead fs w inode n = some b → b ≠ minusOne

section

variable {fs : Fs} {w : World} {inode buf tmpBuf : Mem} {b n m ino off : ℕ} {is : List ℕ} {R : Set ℕ}

theorem NoErrors.rwBlockRead (h : NoErrors fs w) (b : ℕ) (buf : Mem) :
    ∃ m, rwBlockRead fs w b buf = some m := by
  have hsize := h.blksize
  unfold Ext2.rwBlockRead blockRead
  simp only [h.read]
  rw [if_neg (by simp; omega)]
  exact ⟨_, rfl⟩

theorem NoErrors.rwBlockWrite (h : NoErrors fs w) (b : ℕ) (buf : Mem) :
    ∃ w', rwBlockWrite fs w b buf = some w' := by
  have hsize := h.blksize
  unfold Ext2.rwBlockWrite blockWrite
  simp only [h.write]
  rw [if_neg (by simp; omega)]
  exact ⟨_, rfl⟩

theorem NoErrors.walkRead (h : NoErrors fs w) (is : List ℕ) (p : ℕ) (tmpBuf : Mem) :
    ∃ b, walkRead fs w is p tmpBuf = some b := by
  induction is generalizing p tmpBuf with
  | nil => exact ⟨p, rfl⟩
  | cons i is ih =>
      rw [Ext2.walkRead]
      split
      · exact ⟨0, rfl⟩
      · obtain ⟨m, hm⟩ := h.rwBlockRead p tmpBuf
        rw [hm]
        exact ih _ _

/-- The blocks of the first 4 GiB of a file have a way. -/
theorem realBlockPath_isSome (hs : fs.Sized) (hsize : fs.blksize ≤ 65536)
    (hn : n * fs.blksize < 2 ^ 32) : ∃ path, realBlockPath fs n = some path := by
  obtain ⟨k, -, hk⟩ := hs
  have hk6 : k ≤ 6 := by
    by_contra hlt
    have hpow : 2 ^ 7 ≤ 2 ^ k := Nat.pow_le_pow_right (by omega) (by omega)
    omega
  unfold realBlockPath Fs.entries
  rw [hk] at hn ⊢
  interval_cases k
  all_goals
    norm_num at hn ⊢
    split_ifs
    all_goals first | exact ⟨_, _, rfl⟩ | omega

/-- A logical block is read as what the file holds there. -/
theorem inodeReadBlock_spec (hs : fs.Sized) (h : NoErrors fs w) (hok : NumbersOk fs w inode)
    (hn : n * fs.blksize < 2 ^ 32) :
    ∃ retval tmpBuf', inodeReadBlock fs w inode n tmpBuf = (retval, tmpBuf') ∧ retval ≠ minusOne ∧
      ∀ i < fs.blksize, (if retval = 0 then tmpBuf'.memset 0 0 fs.blksize else tmpBuf') i
        = fileByte fs w inode (n * fs.blksize + i) := by
  have hpos := hs.pos
  obtain ⟨⟨slot, is⟩, hpath⟩ := realBlockPath_isSome hs h.blksize hn
  obtain ⟨b, hb⟩ : ∃ b, realBlockRead fs w inode n = some b := by
    unfold realBlockRead
    rw [hpath]
    exact h.walkRead _ _ _
  have hne := hok n b hb
  have hbyte : ∀ i < fs.blksize, fileByte fs w inode (n * fs.blksize + i)
      = if b = 0 then 0 else w.block fs b i := by
    intro i hi
    have hdiv : (n * fs.blksize + i) / fs.blksize = n := by
      rw [Nat.mul_comm, Nat.mul_add_div (by omega), Nat.div_eq_of_lt hi, Nat.add_zero]
    rw [fileByte_of_some (hdiv.symm ▸ hb), Nat.mul_comm, Nat.mul_add_mod, Nat.mod_eq_of_lt hi]
  unfold inodeReadBlock
  rw [hb, Option.getD_some]
  simp only
  rw [if_neg hne]
  by_cases hb0 : b = 0
  · rw [if_pos hb0]
    refine ⟨0, tmpBuf, rfl, by decide, fun i hi => ?_⟩
    rw [hbyte i hi, if_pos hb0, if_pos rfl, Mem.memset, if_pos (by omega)]
  · obtain ⟨m, hm⟩ := h.rwBlockRead b tmpBuf
    rw [if_neg hb0, hm]
    refine ⟨b, m, rfl, hne, fun i hi => ?_⟩
    rw [hbyte i hi, if_neg hb0, if_neg hb0]
    exact rwBlockRead_eq_some hs hm i hi

/-! ## The loop -/

/-- A negative count ends in the first turn. -/
theorem readStep_of_neg {s : ReadState} (hs : fs.Sized) (h : NoErrors fs w)
    (hok : NumbersOk fs w inode) (hn : n * fs.blksize < 2 ^ 32) (hneg : s.count < 0) :
    readStep fs w inode n s = none := by
  obtain ⟨retval, tmpBuf', hread, hne, -⟩ := @inodeReadBlock_spec _ _ _ s.tmpBuf n hs h hok hn
  unfold readStep
  simp only [hread]
  rw [if_neg hne, if_neg (by omega), if_pos hneg]

/-- **The loop**: as many bytes as are asked for, or as fit before its last block ends. -/
theorem readLoop_spec {fuel : ℕ} {s : ReadState} (hs : fs.Sized) (h : NoErrors fs w)
    (hok : NumbersOk fs w inode) (hat : s.currPos / fs.blksize = n)
    (hend : (n + fuel) * fs.blksize < 2 ^ 32) (hcount : 0 ≤ s.count) :
    ∃ s', readLoop fs w inode fuel n s = some (none, s') ∧
      s'.currPos = s.currPos + min s.count.toNat (fuel * fs.blksize - s.currPos % fs.blksize) ∧
      ∀ i, s'.buf i =
        if s.bufPos ≤ i ∧
            i < s.bufPos + min s.count.toNat (fuel * fs.blksize - s.currPos % fs.blksize) then
          fileByte fs w inode (s.currPos + (i - s.bufPos))
        else s.buf i := by
  induction fuel generalizing n s with
  | zero =>
      refine ⟨s, rfl, by simp, fun i => ?_⟩
      rw [if_neg (by omega)]
  | succ fuel ih =>
      have hpos := hs.pos
      set bs := fs.blksize with hbs
      set off := s.currPos % bs with hoff
      have hofflt : off < bs := Nat.mod_lt _ (by omega)
      have hsplit : s.currPos = n * bs + off := by
        rw [← hat, hoff, Nat.mul_comm]
        exact (Nat.div_add_mod _ _).symm
      have hexpand : (n + (fuel + 1)) * bs = n * bs + (fuel * bs + bs) := by ring
      have hfuel : (fuel + 1) * bs = fuel * bs + bs := by ring
      have hn : n * bs < 2 ^ 32 := by omega
      obtain ⟨retval, tmpBuf', hread, hne, hbytes⟩ :=
        @inodeReadBlock_spec _ _ _ s.tmpBuf n hs h hok hn
      rw [← hbs] at hbytes
      rw [readLoop, readStep]
      simp only [hread]
      rw [if_neg hne, ← hbs, ← hoff]
      set tmp := if retval = 0 then tmpBuf'.memset 0 0 bs else tmpBuf' with htmp
      have hcopy : ∀ j, off + j < bs → tmp (off + j) = fileByte fs w inode (s.currPos + j) := by
        intro j hj
        rw [hbytes _ hj, hsplit, Nat.add_assoc]
      by_cases hfull : s.count > ((bs - off : ℕ) : ℤ)
      · -- the rest of the block, and on
        rw [if_pos hfull]
        have hcurr : (s.currPos + (bs - off)) % 2 ^ 32 = (n + 1) * bs := by
          rw [Nat.mod_eq_of_lt (by omega), Nat.succ_mul]
          omega
        obtain ⟨s', hloop, hpos', hbuf'⟩ := @ih (n + 1)
          { tmpBuf := tmp
            buf := s.buf.memcpy s.bufPos tmp off (bs - off)
            bufPos := s.bufPos + (bs - off)
            currPos := (s.currPos + (bs - off)) % 2 ^ 32
            count := s.count - ((bs - off : ℕ) : ℤ) }
          (by simp only; rw [hcurr]; exact Nat.mul_div_cancel _ (by omega))
          (by rw [show n + 1 + fuel = n + (fuel + 1) by omega]; exact hend)
          (by simp only; omega)
        simp only [hcurr, Nat.mul_mod_left, Nat.sub_zero] at hpos' hbuf'
        have htotal : min s.count.toNat ((fuel + 1) * bs - off)
            = bs - off + min (s.count - ((bs - off : ℕ) : ℤ)).toNat (fuel * bs) := by
          rw [hfuel]
          omega
        refine ⟨s', hloop, ?_, fun i => ?_⟩
        · rw [hpos', htotal, Nat.succ_mul]
          omega
        · rw [hbuf', htotal]
          by_cases hfirst : s.bufPos ≤ i ∧ i < s.bufPos + (bs - off)
          · rw [if_neg (by omega), if_pos (by omega), Mem.memcpy, if_pos hfirst]
            exact hcopy _ (by omega)
          · rw [Mem.memcpy, if_neg hfirst]
            by_cases hrest : s.bufPos + (bs - off) ≤ i ∧ i < s.bufPos + (bs - off)
                + min (s.count - ((bs - off : ℕ) : ℤ)).toNat (fuel * bs)
            · rw [if_pos hrest, if_pos (by omega)]
              congr 1
              rw [Nat.succ_mul]
              omega
            · rw [if_neg hrest, if_neg (by omega)]
      · -- the last bytes
        rw [if_neg hfull, if_neg (by omega)]
        have htotal : min s.count.toNat ((fuel + 1) * bs - off) = s.count.toNat := by
          rw [hfuel]
          omega
        refine ⟨_, rfl, ?_, fun i => ?_⟩
        · simp only
          rw [htotal, Nat.mod_eq_of_lt (by omega)]
        · rw [htotal]
          simp only [Mem.memcpy]
          by_cases hi : s.bufPos ≤ i ∧ i < s.bufPos + s.count.toNat
          · rw [if_pos hi, if_pos hi]
            exact hcopy _ (by omega)
          · rw [if_neg hi, if_neg hi]

/-! ## The whole read -/

/-- How many bytes are copied, unless the count is negative and the loop is entered. -/
def readCopied (fs : Fs) (file : File) (nbytes : ℕ) : ℕ :=
  min (toInt32 (readCount file nbytes)).toNat
    ((readEnd fs file nbytes - file.currPos / fs.blksize) * fs.blksize - file.currPos % fs.blksize)

theorem rwInodeRead_of_place (h : NoErrors fs w) (hplace : InodePlace fs R w ino b off) (buf : Mem) :
    ∃ m, rwInodeRead fs w ino buf = some (some m) := by
  obtain ⟨tmp, htmp⟩ := h.rwBlockRead b w.junk
  unfold rwInodeRead
  rw [hplace.1]
  simp only [Option.bind_eq_bind, Option.bind_some, htmp]
  exact ⟨_, rfl⟩

theorem rwInodeWrite_of_place (h : NoErrors fs w) (hplace : InodePlace fs R w ino b off) (buf : Mem) :
    ∃ w', rwInodeWrite fs w ino buf = some (some w') := by
  obtain ⟨tmp, htmp⟩ := h.rwBlockRead b w.junk
  obtain ⟨w', hw'⟩ := h.rwBlockWrite b (tmp.memcpy off buf 0 fs.inodeSize)
  unfold rwInodeWrite
  rw [hplace.1]
  simp only [Option.bind_eq_bind, Option.bind_some, htmp]
  exact ⟨w', by rw [hw']; rfl⟩

theorem SameMap.numbersOk {inode' : Mem} (h : SameMap inode inode') (hok : NumbersOk fs w inode) :
    NumbersOk fs w inode' := by
  intro n b hb
  rw [h.realBlockRead] at hb
  exact hok n b hb

/-- The inode that the loop uses has the map of the inode on disk. -/
theorem inode_of_read (hs : fs.Sized) (h : NoErrors fs w) (hplace : InodePlace fs R w ino b off)
    (hsize : 128 ≤ fs.inodeSize) (now : ℕ) :
    ∃ m, rwInodeRead fs w ino w.junk = some (some m) ∧
      SameMap (diskInode fs w ino) (setTimes m now) := by
  obtain ⟨m, hread⟩ := rwInodeRead_of_place h hplace w.junk
  obtain ⟨hmap, -⟩ := sameMap_of_bytes hsize (rwInodeRead_eq_some hs hplace hread)
  obtain ⟨htimes, -⟩ := setTimes_spec m now
  exact ⟨m, hread, fun s hs => (htimes s hs).trans (hmap s hs)⟩

section

variable {file : File} {now nbytes : ℕ}

theorem readEnd_mul_lt (fs : Fs) (file : File) (nbytes : ℕ) :
    readEnd fs file nbytes * fs.blksize < 2 ^ 32 :=
  lt_of_le_of_lt (Nat.div_mul_le_self _ _) (Nat.mod_lt _ (by norm_num))

/-- **What a read does**, when no length is negative. -/
theorem read_spec (hs : fs.Sized) (h : NoErrors fs w)
    (hplace : InodePlace fs R w file.vId b off) (hsize : 128 ≤ fs.inodeSize)
    (hok : NumbersOk fs w (diskInode fs w file.vId)) (hn : nbytes ≠ 0)
    (hcount : 0 ≤ toInt32 (readCount file nbytes) ∨
      readEnd fs file nbytes ≤ file.currPos / fs.blksize) :
    ∃ buf' w', read fs w now file buf nbytes
        = some (readCopied fs file nbytes,
          { file with currPos := file.currPos + readCopied fs file nbytes }, buf', w') ∧
      ∀ i, buf' i = if i < readCopied fs file nbytes then
          fileByte fs w (diskInode fs w file.vId) (file.currPos + i)
        else buf i := by
  obtain ⟨m, hread, hsame⟩ := inode_of_read hs h hplace hsize now
  have hok' : NumbersOk fs w (setTimes m now) := hsame.numbersOk hok
  obtain ⟨w', hwrite⟩ := rwInodeWrite_of_place h hplace (setTimes m now)
  have hloop : ∃ s', readLoop fs w (setTimes m now)
      (readEnd fs file nbytes - file.currPos / fs.blksize) (file.currPos / fs.blksize)
      ⟨w.junk, buf, 0, file.currPos, toInt32 (readCount file nbytes)⟩ = some (none, s') ∧
      s'.currPos = file.currPos + readCopied fs file nbytes ∧
      ∀ i, s'.buf i = if i < readCopied fs file nbytes then
          fileByte fs w (diskInode fs w file.vId) (file.currPos + i)
        else buf i := by
    by_cases hend : readEnd fs file nbytes ≤ file.currPos / fs.blksize
    · have hzero : readCopied fs file nbytes = 0 := by
        unfold readCopied
        rw [Nat.sub_eq_zero_of_le hend]
        omega
      rw [Nat.sub_eq_zero_of_le hend, hzero]
      exact ⟨_, rfl, rfl, fun i => by rw [if_neg (by omega)]⟩
    · obtain ⟨s', hloop, hpos', hbuf'⟩ := @readLoop_spec _ _ _ _
        (readEnd fs file nbytes - file.currPos / fs.blksize)
        ⟨w.junk, buf, 0, file.currPos, toInt32 (readCount file nbytes)⟩ hs h hok' rfl
        (by
          rw [Nat.add_sub_cancel' (Nat.le_of_not_le hend)]
          exact readEnd_mul_lt fs file nbytes)
        (hcount.resolve_right hend)
      refine ⟨s', hloop, hpos', fun i => ?_⟩
      rw [hbuf' i]
      simp only [Nat.zero_le, true_and, Nat.zero_add, Nat.sub_zero, hsame.fileByte]
      rfl
  obtain ⟨s', hloop, hcurr, hbuf⟩ := hloop
  have hlt : readCopied fs file nbytes < 2 ^ 32 := by
    have := readEnd_mul_lt fs file nbytes
    have hle : (readEnd fs file nbytes - file.currPos / fs.blksize) * fs.blksize
        ≤ readEnd fs file nbytes * fs.blksize := Nat.mul_le_mul_right _ (Nat.sub_le _ _)
    unfold readCopied
    omega
  refine ⟨s'.buf, w', ?_, hbuf⟩
  unfold read
  rw [if_neg hn]
  simp only [Option.bind_eq_bind, hread, Option.bind_some, Option.getD_some, hloop, hwrite, hcurr]
  rw [show file.currPos + readCopied fs file nbytes + 2 ^ 32 - file.currPos
    = readCopied fs file nbytes + 2 ^ 32 by omega, Nat.add_mod_right, Nat.mod_eq_of_lt hlt]
  rfl

/-- A negative count reaches `memcpy` when there is a block to read. -/
theorem read_of_neg (hs : fs.Sized) (h : NoErrors fs w)
    (hplace : InodePlace fs R w file.vId b off) (hsize : 128 ≤ fs.inodeSize)
    (hok : NumbersOk fs w (diskInode fs w file.vId)) (hpos : file.currPos < 2 ^ 32)
    (hn : nbytes ≠ 0) (hneg : toInt32 (readCount file nbytes) < 0)
    (hend : file.currPos / fs.blksize < readEnd fs file nbytes) :
    read fs w now file buf nbytes = none := by
  obtain ⟨m, hread, hsame⟩ := inode_of_read hs h hplace hsize now
  have hok' : NumbersOk fs w (setTimes m now) := hsame.numbersOk hok
  obtain ⟨fuel, hfuel⟩ : ∃ fuel, readEnd fs file nbytes - file.currPos / fs.blksize = fuel + 1 :=
    ⟨_, (Nat.succ_pred_eq_of_pos (by omega)).symm⟩
  have hblock : file.currPos / fs.blksize * fs.blksize < 2 ^ 32 :=
    lt_of_le_of_lt (Nat.div_mul_le_self _ _) hpos
  unfold read
  rw [if_neg hn]
  simp only [Option.bind_eq_bind, hread, Option.bind_some, Option.getD_some, hfuel, readLoop]
  rw [readStep_of_neg hs h hok' hblock hneg]
  rfl

end

end

/-! ## When it is right -/

/-- What a read promises: its result, the position, and the buffer. -/
structure ReadLaw (fs : Fs) (w : World) (file file' : File) (buf buf' : Mem) (nbytes ret : ℕ) :
    Prop where
  result : ret = min nbytes (file.vSize - file.currPos)
  moved : file' = { file with currPos := file.currPos + ret }
  filled : ∀ i < ret, buf' i = fileByte fs w (diskInode fs w file.vId) (file.currPos + i)
  rest : ∀ i, ret ≤ i → buf' i = buf i

/-- The position `pos` lies at or after `last`, in the block that `last` splits. -/
def InSplitBlock (fs : Fs) (last pos : ℕ) : Prop :=
  last % fs.blksize ≠ 0 ∧ pos / fs.blksize = last / fs.blksize ∧ last + (fs.blksize - 1) < 2 ^ 32

/-- Inside the file, the end of what is asked for does not wrap around, what there is to read is less
than 2 GiB, and its last block ends before 4 GiB. Past the end, the position does not lie in the
block in which the file, or a request that wraps around, ends. -/
def ReadFits (fs : Fs) (file : File) (nbytes : ℕ) : Prop :=
  let size := file.vSize
  let pos := file.currPos
  let len := min nbytes (size - pos)
  nbytes = 0 ∨
    (pos < size ∧ nbytes + pos < 2 ^ 32 ∧ len < 2 ^ 31 ∧ pos + len + (fs.blksize - 1) < 2 ^ 32) ∨
    (pos = size ∧ nbytes + pos < 2 ^ 32) ∨
    (size ≤ pos ∧ ¬ InSplitBlock fs (min size ((nbytes + pos) % 2 ^ 32)) pos)

/-- A read of `nbytes` returns, and keeps the law. -/
def ReadsRight (fs : Fs) (w : World) (now : ℕ) (file : File) (buf : Mem) (nbytes : ℕ) : Prop :=
  ∃ ret file' buf' w', read fs w now file buf nbytes = some (ret, file', buf', w') ∧
    ReadLaw fs w file file' buf buf' nbytes ret

section

variable {fs : Fs} {w : World} {file : File} {buf : Mem} {now nbytes last pos b off : ℕ} {R : Set ℕ}

/-- Rounding up reaches the block after `pos` only if `last` splits the block of `pos`. -/
theorem lt_roundUp_iff (hs : fs.Sized) (hle : last ≤ pos) (hlast : last < 2 ^ 32)
    (hsize : fs.blksize ≤ 65536) :
    pos / fs.blksize < (last + fs.blksize - 1) % 2 ^ 32 / fs.blksize ↔ InSplitBlock fs last pos := by
  have hpos := hs.pos
  have hmono := Nat.div_le_div_right (c := fs.blksize) hle
  unfold InSplitBlock
  set bs := fs.blksize
  by_cases hwrap : last + (bs - 1) < 2 ^ 32
  · rw [Nat.mod_eq_of_lt (by omega)]
    have hdiv : (last + bs - 1) / bs = last / bs + (if last % bs = 0 then 0 else 1) := by
      have hsplit := Nat.div_add_mod last bs
      have hlt := Nat.mod_lt last (show 0 < bs by omega)
      rw [show last + bs - 1 = bs * (last / bs) + (last % bs + bs - 1) by omega,
        Nat.mul_add_div (by omega)]
      congr 1
      split
      · rename_i h0
        rw [h0]
        exact Nat.div_eq_of_lt (by omega)
      · exact Nat.div_eq_of_lt_le (by omega) (by omega)
    rw [hdiv]
    split <;> omega
  · have hzero : (last + bs - 1) % 2 ^ 32 / bs = 0 := by
      rw [Nat.mod_eq_sub_mod (by omega), Nat.mod_eq_of_lt (by omega)]
      exact Nat.div_eq_of_lt (by omega)
    rw [hzero]
    exact ⟨fun h => absurd h (Nat.not_lt_zero _), fun h => absurd h.2.2 hwrap⟩

/-- Positions in one block are less than a block apart. -/
theorem InSplitBlock.near (hs : fs.Sized) (h : InSplitBlock fs last pos) :
    pos < last + fs.blksize := by
  have hbs := hs.pos
  obtain ⟨-, hsame, -⟩ := h
  have hlast := Nat.div_mul_le_self last fs.blksize
  have hpos := Nat.lt_div_mul_add (a := pos) (show 0 < fs.blksize by omega)
  rw [hsame] at hpos
  omega

/-- Only the end of the request, in 32 bits, matters for the last block. -/
theorem readEnd_eq (hs : fs.Sized)
    (hlast : (readCount file nbytes + file.currPos) % 2 ^ 32 = last % 2 ^ 32) :
    readEnd fs file nbytes = (last + fs.blksize - 1) % 2 ^ 32 / fs.blksize := by
  have hbs := hs.pos
  unfold readEnd
  rw [Nat.add_sub_assoc (by omega), Nat.add_sub_assoc (by omega), Nat.add_mod, hlast, ← Nat.add_mod]

theorem readCopied_of_le (hend : readEnd fs file nbytes ≤ file.currPos / fs.blksize) :
    readCopied fs file nbytes = 0 := by
  unfold readCopied
  rw [Nat.sub_eq_zero_of_le hend]
  omega

theorem readCopied_eq (fs : Fs) (file : File) (nbytes : ℕ) :
    readCopied fs file nbytes = min (toInt32 (readCount file nbytes)).toNat
      (readEnd fs file nbytes * fs.blksize - file.currPos) := by
  have hsplit := Nat.div_add_mod file.currPos fs.blksize
  rw [Nat.mul_comm] at hsplit
  unfold readCopied
  rw [Nat.sub_mul, Nat.sub_sub, hsplit]

theorem toInt32_nonneg_iff {n : ℕ} (hn : n < 2 ^ 32) : 0 ≤ toInt32 n ↔ n < 2 ^ 31 := by
  unfold toInt32
  split <;> omega

theorem toInt32_toNat {n : ℕ} (hn : n < 2 ^ 31) : (toInt32 n).toNat = n := by
  unfold toInt32
  rw [if_pos hn]
  exact Int.toNat_natCast n

/-- The lengths come out right: no negative one is used, and no byte is missed. -/
def LengthsOk (fs : Fs) (file : File) (nbytes : ℕ) : Prop :=
  (0 ≤ toInt32 (readCount file nbytes) ∨ readEnd fs file nbytes ≤ file.currPos / fs.blksize) ∧
    readCopied fs file nbytes = min nbytes (file.vSize - file.currPos)

/-- Inside the file. -/
theorem lengthsOk_inside (hs : fs.Sized) (hsize : fs.blksize ≤ 65536) (hn0 : nbytes ≠ 0)
    (hwrap : nbytes + file.currPos < 2 ^ 32) (hv : file.vSize < 2 ^ 32) (hin : file.currPos < file.vSize) :
    LengthsOk fs file nbytes ↔ min nbytes (file.vSize - file.currPos) < 2 ^ 31 ∧
      file.currPos + min nbytes (file.vSize - file.currPos) + (fs.blksize - 1) < 2 ^ 32 := by
  have hbs := hs.pos
  have hcount : readCount file nbytes = min nbytes (file.vSize - file.currPos) := by
    unfold readCount
    rw [Nat.mod_eq_of_lt hwrap]
    split <;> omega
  have hpos : 0 < min nbytes (file.vSize - file.currPos) := by omega
  have hle : min nbytes (file.vSize - file.currPos) ≤ file.vSize - file.currPos := Nat.min_le_right _ _
  have hend := @readEnd_eq fs file nbytes (min nbytes (file.vSize - file.currPos) + file.currPos) hs
    (by rw [hcount])
  unfold LengthsOk
  rw [hcount]
  set len := min nbytes (file.vSize - file.currPos)
  by_cases hfit : file.currPos + len + (fs.blksize - 1) < 2 ^ 32
  · rw [Nat.mod_eq_of_lt (by omega)] at hend
    -- the loop reaches the end of what is asked for
    have hreach : len + file.currPos ≤ readEnd fs file nbytes * fs.blksize := by
      have := Nat.lt_div_mul_add (a := len + file.currPos + fs.blksize - 1)
        (show 0 < fs.blksize by omega)
      rw [hend]
      omega
    have hlt : file.currPos / fs.blksize < readEnd fs file nbytes := by
      rw [Nat.div_lt_iff_lt_mul (by omega)]
      omega
    rw [toInt32_nonneg_iff (by omega)]
    refine ⟨fun h => ⟨h.1.resolve_right (by omega), hfit⟩, fun h => ⟨Or.inl h.1, ?_⟩⟩
    rw [readCopied_eq, hcount, toInt32_toNat h.1]
    omega
  · have hzero : readEnd fs file nbytes = 0 := by
      rw [hend, Nat.mod_eq_sub_mod (by omega), Nat.mod_eq_of_lt (by omega)]
      exact Nat.div_eq_of_lt (by omega)
    rw [readCopied_of_le (hzero ▸ Nat.zero_le _)]
    exact ⟨fun h => absurd h.2 (by omega), fun h => absurd h.2 hfit⟩

/-- A request that wraps around ends before the position. -/
theorem lengthsOk_wrapped (hs : fs.Sized) (hsize : fs.blksize ≤ 65536) (hn : nbytes < 2 ^ 32)
    (hp : file.currPos < 2 ^ 32) (hwrap : ¬ nbytes + file.currPos < 2 ^ 32)
    (hin : file.currPos < file.vSize) : ¬ LengthsOk fs file nbytes := by
  have hsum : (nbytes + file.currPos) % 2 ^ 32 = nbytes + file.currPos - 2 ^ 32 := by
    rw [Nat.mod_eq_sub_mod (by omega), Nat.mod_eq_of_lt (by omega)]
  have hcount : readCount file nbytes = nbytes := by
    unfold readCount
    rw [hsum, if_neg (by omega)]
  have hend := @readEnd_eq fs file nbytes (nbytes + file.currPos - 2 ^ 32) hs
    (by rw [hcount, hsum, Nat.mod_eq_of_lt (by omega)])
  rintro ⟨hsign, hlen⟩
  by_cases hlt : file.currPos / fs.blksize < readEnd fs file nbytes
  · have hlt' := hlt
    rw [hend, lt_roundUp_iff hs (by omega) (by omega) hsize] at hlt'
    have hnear := hlt'.near hs
    rw [hcount, toInt32_nonneg_iff hn] at hsign
    omega
  · rw [readCopied_of_le (by omega)] at hlen
    omega

/-- At the end of the file and past it. -/
theorem lengthsOk_past (hs : fs.Sized) (hsize : fs.blksize ≤ 65536)
    (hn : nbytes < 2 ^ 32) (hp : file.currPos < 2 ^ 32) (hle : file.vSize ≤ file.currPos) :
    LengthsOk fs file nbytes ↔ (file.currPos = file.vSize ∧ nbytes + file.currPos < 2 ^ 32) ∨
      ¬ InSplitBlock fs (min file.vSize ((nbytes + file.currPos) % 2 ^ 32)) file.currPos := by
  have hmodlt : (nbytes + file.currPos) % 2 ^ 32 < 2 ^ 32 := Nat.mod_lt _ (by norm_num)
  have hlast : (readCount file nbytes + file.currPos) % 2 ^ 32
      = min file.vSize ((nbytes + file.currPos) % 2 ^ 32) % 2 ^ 32 := by
    unfold readCount
    split <;> omega
  have hend := readEnd_eq hs hlast
  have hlt := lt_roundUp_iff hs (show min file.vSize ((nbytes + file.currPos) % 2 ^ 32)
    ≤ file.currPos by omega) (by omega) hsize
  rw [← hend] at hlt
  unfold LengthsOk
  rw [Nat.sub_eq_zero_of_le hle, Nat.min_zero, ← hlt]
  by_cases hstart : file.currPos / fs.blksize < readEnd fs file nbytes
  · have hnear := (hlt.mp hstart).near hs
    have hreach : file.currPos < readEnd fs file nbytes * fs.blksize := by
      rwa [Nat.div_lt_iff_lt_mul (by have := hs.pos; omega)] at hstart
    have hcountlt : readCount file nbytes < 2 ^ 32 := by
      unfold readCount
      split <;> omega
    simp only [hstart, not_true_eq_false, or_false, Nat.not_le_of_lt hstart]
    rw [toInt32_nonneg_iff hcountlt]
    constructor
    · rintro ⟨hsign, hzero⟩
      rw [readCopied_eq, toInt32_toNat hsign] at hzero
      unfold readCount at hsign hzero
      split at hsign <;> omega
    · rintro ⟨heq, hwrap⟩
      have hzero : readCount file nbytes = 0 := by
        unfold readCount
        rw [Nat.mod_eq_of_lt hwrap, if_pos (by omega)]
        omega
      rw [readCopied_eq, hzero]
      exact ⟨by norm_num, Nat.zero_min _⟩
  · have hge : readEnd fs file nbytes ≤ file.currPos / fs.blksize := by omega
    exact ⟨fun _ => Or.inr hstart, fun _ => ⟨Or.inr hge, readCopied_of_le hge⟩⟩

/-- The lengths come out right exactly when the request fits. -/
theorem lengthsOk_iff (hs : fs.Sized) (hsize : fs.blksize ≤ 65536) (hn0 : nbytes ≠ 0)
    (hn : nbytes < 2 ^ 32) (hp : file.currPos < 2 ^ 32) (hv : file.vSize < 2 ^ 32) :
    LengthsOk fs file nbytes ↔ ReadFits fs file nbytes := by
  unfold ReadFits
  simp only [hn0, false_or]
  by_cases hin : file.currPos < file.vSize
  · have hnot : ¬ file.vSize ≤ file.currPos := by omega
    have hne : file.currPos ≠ file.vSize := by omega
    simp only [hin, hnot, hne, true_and, false_and, or_false]
    by_cases hwrap : nbytes + file.currPos < 2 ^ 32
    · rw [lengthsOk_inside hs hsize hn0 hwrap hv hin]
      simp only [hwrap, true_and]
    · simp only [hwrap, false_and, iff_false]
      exact lengthsOk_wrapped hs hsize hn hp hwrap hin
  · have hle : file.vSize ≤ file.currPos := by omega
    simp only [hin, hle, false_and, true_and, false_or]
    exact lengthsOk_past hs hsize hn hp hle

/-- **When `ext2_read` reads what is in the file.** -/
theorem read_right_iff (hs : fs.Sized) (h : NoErrors fs w)
    (hplace : InodePlace fs R w file.vId b off) (hsize : 128 ≤ fs.inodeSize)
    (hok : NumbersOk fs w (diskInode fs w file.vId)) (hn : nbytes < 2 ^ 32)
    (hp : file.currPos < 2 ^ 32) (hv : file.vSize < 2 ^ 32) :
    ReadsRight fs w now file buf nbytes ↔ ReadFits fs file nbytes := by
  by_cases hn0 : nbytes = 0
  · subst hn0
    refine ⟨fun _ => Or.inl rfl, fun _ => ⟨0, file, buf, w, rfl, ?_, rfl, fun i hi => ?_, fun _ _ => rfl⟩⟩
    · simp
    · omega
  rw [← lengthsOk_iff hs h.blksize hn0 hn hp hv]
  constructor
  · rintro ⟨ret, file', buf', w', hrun, hlaw⟩
    have hsign : 0 ≤ toInt32 (readCount file nbytes) ∨
        readEnd fs file nbytes ≤ file.currPos / fs.blksize := by
      by_contra hnot
      rw [not_or, Int.not_le, Nat.not_le] at hnot
      rw [read_of_neg hs h hplace hsize hok hp hn0 hnot.1 hnot.2] at hrun
      exact absurd hrun (by simp)
    obtain ⟨buf₁, w₁, hrun₁, -⟩ := read_spec hs h hplace hsize hok hn0 hsign
    rw [hrun₁] at hrun
    obtain ⟨hret, -⟩ := Prod.mk.inj (Option.some.inj hrun)
    exact ⟨hsign, hret.trans hlaw.result⟩
  · rintro ⟨hsign, hlen⟩
    obtain ⟨buf', w', hrun, hbuf⟩ := read_spec hs h hplace hsize hok hn0 hsign
    refine ⟨_, _, buf', w', hrun, hlen, rfl, fun i hi => ?_, fun i hi => ?_⟩
    · rw [hbuf i, if_pos hi]
    · rw [hbuf i, if_neg (by omega)]

end

/-! ## Reads of a file of five bytes -/

theorem oneFile_noErrors (size : ℕ) : NoErrors (almostFullFs 1 0) (oneFile size) :=
  ⟨fun _ => rfl, fun _ => rfl, by norm_num [almostFullFs]⟩

theorem oneFile_place (size : ℕ) : InodePlace (almostFullFs 1 0) ∅ (oneFile size) 11 4 1280 := by
  refine ⟨inodeToBlock_oneFile size, by simp [almostFullFs], ?_, Set.notMem_empty _⟩
  unfold Fs.Addressable almostFullFs
  norm_num

theorem oneFile_numbersOk (size : ℕ) :
    NumbersOk (almostFullFs 1 0) (oneFile size) (diskInode (almostFullFs 1 0) (oneFile size) 11) := by
  intro n b hb hb1
  have hs : (almostFullFs 1 0).Sized := almostFullFs_sized le_rfl
  obtain ⟨b', hb', hlt⟩ : ∃ b', b = b' ∧ b' ≤ 20 := by
    cases hpath : realBlockPath (almostFullFs 1 0) n with
    | none =>
        rw [realBlockRead, hpath] at hb
        exact absurd hb (by simp)
    | some path =>
        obtain ⟨slot, is⟩ := path
        obtain ⟨hslot, hlen, -⟩ := realBlockPath_eq_some hpath
        rw [realBlockRead_eq hs hpath, iBlock_oneFile size hslot] at hb
        by_cases h0 : slot = 0
        · subst h0
          obtain rfl := List.length_eq_zero_iff.mp (hlen.trans (by rw [levels]))
          rw [if_pos rfl] at hb
          exact ⟨20, (Option.some.inj hb).symm, le_rfl⟩
        · rw [if_neg h0, PtrTree.walk_zero] at hb
          exact ⟨0, (Option.some.inj hb).symm, by omega⟩
  unfold minusOne at hb1
  omega

/-- Ten bytes are asked for at byte 2, and three are read. -/
theorem read_right_iff_short :
    ReadsRight (almostFullFs 1 0) (oneFile 5) 0 (fileAt 5 2) Mem.zero 10 :=
  (@read_right_iff _ _ (fileAt 5 2) _ _ _ _ _ _ (almostFullFs_sized le_rfl) (oneFile_noErrors 5)
    (oneFile_place 5) (by simp [almostFullFs]) (oneFile_numbersOk 5) (by norm_num)
    (by norm_num [fileAt]) (by norm_num [fileAt])).mpr
    (Or.inr (Or.inl (by norm_num [fileAt, almostFullFs])))

/-- A byte is asked for right after the end of the file, and -1 bytes are copied. -/
theorem read_can_overrun :
    ¬ ∀ (fs : Fs) (w : World) (now : ℕ) (file : File) (buf : Mem) (nbytes b off : ℕ),
      fs.Sized → NoErrors fs w → InodePlace fs ∅ w file.vId b off → 128 ≤ fs.inodeSize →
      NumbersOk fs w (diskInode fs w file.vId) → nbytes < 2 ^ 32 → file.currPos < 2 ^ 32 →
      file.vSize < 2 ^ 32 → ReadsRight fs w now file buf nbytes := by
  intro hall
  have hnone : (read (almostFullFs 1 0) (oneFile 5) 0 (fileAt 5 6) Mem.zero 1).isNone = true := by
    decide +kernel
  obtain ⟨ret, file', buf', w', hrun, -⟩ := hall (almostFullFs 1 0) (oneFile 5) 0 (fileAt 5 6)
    Mem.zero 1 4 1280 (almostFullFs_sized le_rfl) (oneFile_noErrors 5) (oneFile_place 5)
    (by simp [almostFullFs]) (oneFile_numbersOk 5) (by norm_num) (by norm_num [fileAt])
    (by norm_num [fileAt])
  rw [hrun] at hnone
  exact absurd hnone (by simp)

end Shaunos.Ext2
