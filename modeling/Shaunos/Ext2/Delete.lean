import Shaunos.Ext2.Dir

/-!
# Deleting a directory entry

Reference: `Kernel/ext2.c` (`ext2_delete_entry`, `ext2_free_inode`, `ext2_dir_empty`).

The entry is looked for from the start of each block by the lengths that names need, while records
are found by `d_reclen`. What lies between the end of a name and the next record is taken for a
record, and names are compared with `strcmp`, although no NUL need follow them.

* `freeInode_spec` — freeing an inode changes the metadata of the volume only.
-/

namespace Shaunos.Ext2

/-! ## `ext2_dir_empty` -/

/-- A number of 32 bits as an `int`. -/
def toInt32 (n : ℕ) : ℤ := if n < 2 ^ 31 then n else n - 2 ^ 32

/-- The checks of the first record of a block: it is unused, or named `.` or `..`. -/
def dotRecord (m : Mem) (inodeNo : ℕ) : Bool :=
  if dInode m 0 ≠ 0 then
    if m 8 ≠ 0x2E#8 then false
    else if dNameLen m 0 > 2 then false
    else if dNameLen m 0 < 2 then dInode m 0 == inodeNo
    else m 9 == 0x2E#8
  else true

/-- The loop of `ext2_dir_empty` when `i` is still to be counted up `turns` times. The record pointer
is set back in every turn, and `goto AGAIN` reads the same block again. -/
def dirEmptyLoop (fs : Fs) (w : World) (inode : Mem) (inodeNo : ℕ) :
    (fuel turns offset : ℕ) → (blockBuf : Mem) → Option Bool
  | 0, _, _, _ => none
  | _ + 1, 0, _, _ => some true
  | fuel + 1, turns + 1, offset, blockBuf =>
      if dotRecord blockBuf inodeNo = false then some false
      else
        let offset := offset + dReclen blockBuf 0
        if offset > fs.blksize then
          let (retval, blockBuf) := inodeReadBlock fs w inode 0 blockBuf
          if retval = 0 then some true
          else if retval = minusOne then some false
          else dirEmptyLoop fs w inode inodeNo fuel (turns + 1) 0 blockBuf
        else dirEmptyLoop fs w inode inodeNo fuel turns offset blockBuf

/-- How often the loop of `ext2_dir_empty` counts up `i`, which it never assigns. -/
def emptyTurns (w : World) (inode : Mem) : ℕ := (iLinkCnt inode - toInt32 w.uninit).toNat

/-- `ext2_dir_empty`; false stands for the result -1. -/
def dirEmpty (fs : Fs) (w : World) (inode : Mem) (inodeNo : ℕ) : Option Bool :=
  if iLinkCnt inode > 2 then some false
  else
    let (retval, blockBuf) := inodeReadBlock fs w inode 0 w.junk
    if retval = 0 then some true
    else if retval = minusOne then some false
    else dirEmptyLoop fs w inode inodeNo (2 ^ 34) (emptyTurns w inode) 0 blockBuf

/-! ## `ext2_free_inode` -/

/-- Free the blocks of an inode from `blockNr` on. -/
def freeInodeBlocks (fs : Fs) (inode : Mem) : (fuel blockNr : ℕ) → (w : World) → Option World
  | 0, _, _ => none
  | fuel + 1, blockNr, w =>
      match realBlockRead fs w inode blockNr with
      | none => some w
      | some realBlock =>
          if realBlock = 0 ∨ realBlock = minusOne then some w
          else freeInodeBlocks fs inode fuel (blockNr + 1) (freeBlock fs w realBlock).2

/-- `EXT2_FT_DIR` is a bit of `i_mode` here. -/
def modeDir (inode : Mem) : Bool := iMode inode &&& 0x4000 != 0

/-- `ext2_free_inode`; false stands for the result -1. -/
def freeInode (fs : Fs) (w : World) (inodeNo : ℕ) : Option (Bool × World) := do
  let inode := (← rwInodeRead fs w inodeNo w.junk).getD w.junk
  let empty ← if modeDir inode then dirEmpty fs w inode inodeNo else some true
  if empty = false then return (false, w)
  else
    let w ← freeInodeBlocks fs inode (2 ^ 32 + 1) 0 w
    return giveBit fs .inode w ((inodeNo - 1) / fs.inodePerGrp) ((inodeNo - 1) % fs.inodePerGrp)

/-! ## `ext2_delete_entry` -/

/-- Where the scan of a block ends. -/
inductive DeleteScan where
  /-- The name is at `de`; `pde` is the place looked at before. -/
  | hit (de : ℕ) (pde : Option ℕ)
  /-- `goto AGAIN`. -/
  | next (offset pde : ℕ)
  /-- `i_link_cnt` places have been looked at. -/
  | miss

def deleteScan (fs : Fs) (m : Mem) (path : CString) :
    (turns offset de : ℕ) → (pde : Option ℕ) → DeleteScan
  | 0, _, _, _ => .miss
  | turns + 1, offset, de, pde =>
      if strcmpEq m (de + 8) path.bytes then .hit de pde
      else if offset + dReclen m de > fs.blksize then .next (offset + dReclen m de) de
      else deleteScan fs m path turns (offset + dReclen m de) (de + realLen (dNameLen m de)) (some de)

/-- From `got_it` on: the record at `de` of block `blockNo` goes to the one at `pde`. -/
def removeEntry (fs : Fs) (w : World) (v blockNo : ℕ) (inode blockBuf : Mem) (de pde : ℕ) :
    Option (ℤ × World) := do
  let blockBuf := setDReclen blockBuf pde (dReclen blockBuf pde + dReclen blockBuf de)
  let inode := setILinkCnt inode (iLinkCnt inode + (2 ^ 16 - 1))
  let (ok, w) ← freeInode fs w (dInode blockBuf de)
  if ok = false then return (-1, w)
  else
    let w := (← rwInodeWrite fs w v inode).getD w
    let blockBuf := blockBuf.memset de 0 (realLen (dNameLen blockBuf de))
    return (0, (rwBlockWrite fs w blockNo blockBuf).getD w)

/-- The blocks from `blockNr` on. When the name is not found, or in the first record, what
`ext2_inode_read_block` returned is returned: a block number or 0. -/
def deleteFrom (fs : Fs) (w : World) (v : ℕ) (inode : Mem) (path : CString) :
    (fuel blockNr offset : ℕ) → (pde : Option ℕ) → (blockBuf : Mem) → Option (ℤ × World)
  | 0, _, _, _, _ => none
  | fuel + 1, blockNr, offset, pde, blockBuf =>
      let (retval, blockBuf) := inodeReadBlock fs w inode blockNr blockBuf
      if retval = minusOne ∨ retval = 0 then some (toInt32 retval, w)
      else
        match deleteScan fs blockBuf path (iLinkCnt inode) offset 0 pde with
        | .hit de (some pde) => removeEntry fs w v retval inode blockBuf de pde
        | .hit _ none => some (toInt32 retval, w)
        | .next offset pde => deleteFrom fs w v inode path fuel (blockNr + 1) offset (some pde) blockBuf
        | .miss => some (toInt32 retval, w)

/-- `ext2_delete_entry` in the directory with inode `v`. -/
def deleteEntry (fs : Fs) (w : World) (v : ℕ) (path : CString) : Option (ℤ × World) := do
  let inode := (← rwInodeRead fs w v w.junk).getD w.junk
  deleteFrom fs w v inode path (2 ^ 32) 0 0 none w.junk

/-! ## What `ext2_dir_empty` takes for empty -/

section

variable {fs : Fs} {w w' : World} {S : Set ℕ} {inode m : Mem} {t inodeNo : ℕ}

/-- What `ext2_dir_empty` takes for empty: a link count of at most 2, and no first block, or a first
record that passes the checks, if they are made at all. -/
def TakenForEmpty (fs : Fs) (w : World) (inode : Mem) (inodeNo : ℕ) : Prop :=
  iLinkCnt inode ≤ 2 ∧
    ((inodeReadBlock fs w inode 0 w.junk).1 = 0 ∨
      (inodeReadBlock fs w inode 0 w.junk).1 ≠ minusOne ∧
        (emptyTurns w inode = 0 ∨ dotRecord (inodeReadBlock fs w inode 0 w.junk).2 inodeNo = true ∧
          dReclen (inodeReadBlock fs w inode 0 w.junk).2 0 ≤ fs.blksize))

/-- What `ext2_dir_empty` takes for a directory with entries. -/
def TakenForFull (fs : Fs) (w : World) (inode : Mem) (inodeNo : ℕ) : Prop :=
  2 < iLinkCnt inode ∨ (inodeReadBlock fs w inode 0 w.junk).1 = minusOne ∨
    (inodeReadBlock fs w inode 0 w.junk).1 ≠ 0 ∧ 0 < emptyTurns w inode ∧
      dotRecord (inodeReadBlock fs w inode 0 w.junk).2 inodeNo = false

/-- Reading a block once more gives the same buffer. -/
theorem inodeReadBlock_again {nr r : ℕ} {buf : Mem} (h : inodeReadBlock fs w inode nr buf = (r, m)) :
    inodeReadBlock fs w inode nr m = (r, m) := by
  unfold inodeReadBlock at h ⊢
  simp only at h ⊢
  split at h
  · rename_i hr
    obtain ⟨rfl, rfl⟩ := Prod.mk.inj h
    rw [if_pos hr]
  rename_i hne
  rw [if_neg hne]
  split at h
  · rename_i hr
    obtain ⟨rfl, rfl⟩ := Prod.mk.inj h
    rw [if_pos hr]
  rename_i hne₀
  rw [if_neg hne₀]
  unfold rwBlockRead blockRead at h ⊢
  simp only at h ⊢
  split at h
  · rename_i hfail
    split at hfail
    · obtain ⟨rfl, rfl⟩ := Prod.mk.inj h
      rename_i hbad
      rw [if_pos hbad]
    · simp at hfail
  · rename_i buf' hok
    split at hok
    · simp at hok
    · rename_i hgood
      obtain ⟨rfl, rfl⟩ := Prod.mk.inj h
      obtain rfl := Option.some.inj hok
      rw [if_neg hgood]
      simp only [Prod.mk.injEq, true_and]
      funext i
      simp only [Mem.memcpy]
      split <;> rfl

/-- A first record that passes the checks passes them in every turn. -/
theorem dirEmptyLoop_true {r : ℕ} (hdot : dotRecord m inodeNo = true) (hlen : dReclen m 0 ≤ fs.blksize)
    (hread : inodeReadBlock fs w inode 0 m = (r, m)) (hr : r ≠ 0 ∧ r ≠ minusOne) {fuel turns : ℕ}
    (hfuel : 2 * turns + 1 ≤ fuel) (offset : ℕ) :
    dirEmptyLoop fs w inode inodeNo fuel turns offset m = some true := by
  induction turns generalizing fuel offset with
  | zero =>
      obtain ⟨fuel, rfl⟩ : ∃ f, fuel = f + 1 := ⟨fuel - 1, by omega⟩
      rfl
  | succ turns ih =>
      obtain ⟨fuel, rfl⟩ : ∃ f, fuel = f + 2 := ⟨fuel - 2, by omega⟩
      rw [dirEmptyLoop, if_neg (by simp [hdot])]
      simp only
      split
      · -- the block is read again, and the next turn counts
        rw [hread]
        simp only
        rw [if_neg hr.1, if_neg hr.2, dirEmptyLoop, if_neg (by simp [hdot])]
        simp only
        rw [if_neg (by omega)]
        exact ih (by omega) _
      · exact ih (by omega) _

/-- A first record that is longer than its block is looked at for ever. -/
theorem dirEmptyLoop_none {r : ℕ} (hdot : dotRecord m inodeNo = true) (hlen : fs.blksize < dReclen m 0)
    (hread : inodeReadBlock fs w inode 0 m = (r, m)) (hr : r ≠ 0 ∧ r ≠ minusOne) (fuel turns offset : ℕ) :
    dirEmptyLoop fs w inode inodeNo fuel (turns + 1) offset m = none := by
  induction fuel generalizing offset with
  | zero => rfl
  | succ fuel ih =>
      rw [dirEmptyLoop, if_neg (by simp [hdot])]
      simp only
      rw [if_pos (by omega), hread]
      simp only
      rw [if_neg hr.1, if_neg hr.2]
      exact ih 0

/-- **What `ext2_dir_empty` looks at.** -/
theorem dirEmpty_iff (fs : Fs) (w : World) (inode : Mem) (inodeNo : ℕ) :
    (dirEmpty fs w inode inodeNo = some true ↔ TakenForEmpty fs w inode inodeNo) ∧
    (dirEmpty fs w inode inodeNo = some false ↔ TakenForFull fs w inode inodeNo) := by
  unfold TakenForEmpty TakenForFull dirEmpty
  obtain ⟨r, m, hread⟩ : ∃ r m, inodeReadBlock fs w inode 0 w.junk = (r, m) := ⟨_, _, rfl⟩
  rw [hread]
  simp only
  by_cases hlink : iLinkCnt inode > 2
  · simp [hlink]
  rw [if_neg hlink]
  by_cases hr : r = 0
  · have hne : (0 : ℕ) ≠ minusOne := by decide
    simp [hr, hne]
    omega
  rw [if_neg hr]
  by_cases hr' : r = minusOne
  · simp [hr', show minusOne ≠ 0 by decide]
  rw [if_neg hr']
  have hagain := inodeReadBlock_again hread
  have hturns : emptyTurns w inode ≤ 2 ^ 32 := by
    unfold emptyTurns toInt32
    split <;> omega
  cases hcount : emptyTurns w inode with
  | zero =>
      simp [dirEmptyLoop, hr, hr']
      omega
  | succ turns =>
      cases hdot : dotRecord m inodeNo with
      | false =>
          simp [dirEmptyLoop, hdot, hr, hr']
      | true =>
          by_cases hlen : dReclen m 0 ≤ fs.blksize
          · rw [dirEmptyLoop_true hdot hlen hagain ⟨hr, hr'⟩ (by omega)]
            simp [hr, hr', hlen]
            omega
          · rw [dirEmptyLoop_none hdot (by omega) hagain ⟨hr, hr'⟩]
            simp [hr, hr', hlen]
            omega

/-! ## Freeing an inode -/

/-- The inode of an entry: it is in the inode table, its indirect blocks are not metadata, and its
blocks and itself belong to groups of the volume. -/
structure Target (fs : Fs) (w : World) (t : ℕ) : Prop where
  place : ∃ b off, InodePlace fs {c | Metadata fs w c} w t b off
  mapped : Mapped fs {c | Metadata fs w c} w (diskInode fs w t)
  groups : ∀ n b, realBlockRead fs w (diskInode fs w t) n = some b → b ≠ 0 →
    freeGroup fs b < fs.groupsCount
  group : (t - 1) / fs.inodePerGrp < fs.groupsCount

theorem frame_giveBit (hp : Placed fs w) {k : Kind} {g : ℕ} (hg : g < fs.groupsCount) (j : ℕ) :
    Frame fs {c | Metadata fs w c} w (giveBit fs k w g j).2 := by
  obtain ⟨hframe, -⟩ := giveBit_spec (k := k) (j := j) hp hg Prod.mk.eta.symm
  apply hframe.mono
  rintro c (rfl | rfl)
  · exact Or.inr (Or.inr ⟨k, g, hg, rfl⟩)
  · exact Or.inr (Or.inl rfl)

theorem Frame.metadata_eq (h : Frame fs S w w') : {c | Metadata fs w' c} = {c | Metadata fs w c} :=
  Set.ext h.metadata

/-- The blocks of an inode are freed, whatever they are; only metadata changes. -/
theorem freeInodeBlocks_spec (hs : fs.Sized) (hp : Placed fs w)
    (hm : Mapped fs {c | Metadata fs w c} w inode)
    (hgroups : ∀ n b, realBlockRead fs w inode n = some b → b ≠ 0 → freeGroup fs b < fs.groupsCount)
    {fuel nr : ℕ} (hnr : nr ≤ 2 ^ 32) (hfuel : 2 ^ 32 < nr + fuel) :
    ∃ w', freeInodeBlocks fs inode fuel nr w = some w' ∧ Frame fs {c | Metadata fs w c} w w' := by
  induction fuel generalizing nr w with
  | zero => omega
  | succ fuel ih =>
      rw [freeInodeBlocks]
      cases hread : realBlockRead fs w inode nr with
      | none => exact ⟨w, rfl, Frame.refl _ _ _⟩
      | some b =>
          simp only
          split
          · exact ⟨w, rfl, Frame.refl _ _ _⟩
          rename_i hb
          have hlt := lt_of_realBlockRead hread
          have hg := hgroups nr b hread (fun h => hb (Or.inl h))
          have hframe : Frame fs {c | Metadata fs w c} w (freeBlock fs w b).2 := frame_giveBit hp hg _
          have hdisj : Disjoint {c | Metadata fs w c} (indirect fs w inode) :=
            Set.disjoint_right.mpr fun c hc => (hm.outside c hc).2
          have hmeta := hframe.metadata_eq
          have hnext : nr + 1 ≤ 2 ^ 32 := by omega
          obtain ⟨w', hw', hframe'⟩ := ih (hframe.placed hp) (hmeta ▸ hframe.mapped hm hdisj)
            (fun n c hc => hgroups n c (by rwa [hframe.realBlockRead hs hm hdisj] at hc)) hnext
            (by omega)
          rw [hmeta] at hframe'
          exact ⟨w', hw', hframe.trans hframe'⟩

theorem Healthy.giveBit (hh : Healthy fs w) (k : Kind) (g j : ℕ) :
    ∃ w', giveBit fs k w g j = (true, w') := by
  obtain ⟨m, hm⟩ := hh.rwBlockRead (bitmapBlock k w.groupDesc g) w.junk
  obtain ⟨w₁, hw₁⟩ := hh.rwBlockWrite (bitmapBlock k w.groupDesc g) (m.clearBit j)
  have hh₁ : Healthy fs w₁ := by
    rw [blockWrite_eq_some hw₁]
    exact ⟨hh.read, hh.write, hh.blksize, hh.table⟩
  have hh₂ : Healthy fs (w₁.countUp k g) := hh₁.frame (frame_setNums ∅ w₁ k g _ _)
  obtain ⟨w₂, hw₂⟩ := hh₂.writeGroupDesc
  exact ⟨w₂, by simp only [Ext2.giveBit, hm, hw₁, hw₂]⟩

/-- **Freeing an inode** changes metadata only; it is refused for what `ext2_dir_empty` takes for a
directory with entries, and then nothing changes. -/
theorem freeInode_spec (hs : fs.Sized) (hsize : 128 ≤ fs.inodeSize) (hp : Placed fs w)
    (hh : Healthy fs w) (ht : Target fs w t) :
    (modeDir (inodeBuf fs w t) = false ∨ TakenForEmpty fs w (inodeBuf fs w t) t →
      ∃ w', freeInode fs w t = some (true, w') ∧ Frame fs {c | Metadata fs w c} w w') ∧
    (modeDir (inodeBuf fs w t) = true → TakenForFull fs w (inodeBuf fs w t) t →
      freeInode fs w t = some (false, w)) ∧
    ∀ ok w', freeInode fs w t = some (ok, w') →
      ok = true ∧ (modeDir (inodeBuf fs w t) = false ∨ TakenForEmpty fs w (inodeBuf fs w t) t) ∨
      ok = false ∧ modeDir (inodeBuf fs w t) = true ∧ TakenForFull fs w (inodeBuf fs w t) t := by
  obtain ⟨bt, off, hplace⟩ := ht.place
  have hmap := sameMap_inodeBuf (w := w) (v := t) hsize
  have hmapped : Mapped fs {c | Metadata fs w c} w (inodeBuf fs w t) := hmap.mapped ht.mapped
  have hgroups : ∀ n b, realBlockRead fs w (inodeBuf fs w t) n = some b → b ≠ 0 →
      freeGroup fs b < fs.groupsCount := fun n b h => ht.groups n b (by rwa [hmap.realBlockRead] at h)
  obtain ⟨w₁, hw₁, hframe₁⟩ := freeInodeBlocks_spec hs hp hmapped hgroups (Nat.zero_le _)
    (show 2 ^ 32 < 0 + (2 ^ 32 + 1) by omega)
  obtain ⟨w₂, hw₂⟩ := (hh.frame hframe₁).giveBit .inode ((t - 1) / fs.inodePerGrp)
    ((t - 1) % fs.inodePerGrp)
  have hframe₂ : Frame fs {c | Metadata fs w c} w₁ w₂ := by
    have hframe := frame_giveBit (k := .inode) (hframe₁.placed hp) ht.group
      ((t - 1) % fs.inodePerGrp)
    rwa [hw₂, hframe₁.metadata_eq] at hframe
  have hfree : freeInode fs w t
      = (if modeDir (inodeBuf fs w t) then dirEmpty fs w (inodeBuf fs w t) t else some true).bind
          fun empty => if empty = false then some (false, w) else some (true, w₂) := by
    unfold freeInode
    rw [hh.rwInodeRead_eq hs hplace]
    simp only [Option.bind_eq_bind, Option.bind_some, Option.getD_some, hw₁, hw₂]
    split <;> rfl
  obtain ⟨hempty, hfull⟩ := dirEmpty_iff fs w (inodeBuf fs w t) t
  rw [hfree]
  cases hmode : modeDir (inodeBuf fs w t) with
  | false =>
      refine ⟨fun _ => ⟨w₂, rfl, hframe₁.trans hframe₂⟩, fun h => absurd h (by simp), ?_⟩
      rintro ok w' h
      obtain ⟨rfl, -⟩ := Prod.mk.inj (Option.some.inj h)
      exact Or.inl ⟨rfl, Or.inl rfl⟩
  | true =>
      simp only [if_true]
      refine ⟨fun h => ?_, fun _ h => ?_, fun ok w' h => ?_⟩
      · obtain h | h := h
        · exact absurd h (by simp)
        · rw [hempty.mpr h]
          exact ⟨w₂, rfl, hframe₁.trans hframe₂⟩
      · rw [hfull.mpr h]
        rfl
      · obtain ⟨empty, hres, h⟩ := Option.bind_eq_some_iff.mp h
        cases empty with
        | true =>
            obtain ⟨rfl, -⟩ := Prod.mk.inj (Option.some.inj h)
            exact Or.inl ⟨rfl, Or.inr (hempty.mp hres)⟩
        | false =>
            obtain ⟨rfl, -⟩ := Prod.mk.inj (Option.some.inj h)
            exact Or.inr ⟨rfl, trivial, hfull.mp hres⟩

end

end Shaunos.Ext2
