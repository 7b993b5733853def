import Shaunos.Common.RecordScan
import Shaunos.Ext2.DirEmpty
import Shaunos.Ext2.Read

/-!
# Scans of directories that nobody has checked

Reference: `Kernel/ext2.c` (`ext2_dir_find_entry`, `ext2_dir_insert_entry`, `ext2_next_entry`),
`lib/string.c`, `lib/vsprintf.c`.

Both functions go from record to record by `d_reclen` as it stands on the disk. The definitions here
say of every access to the block buffer whether it stays inside. Messages are accesses, too: they
print names with `%s`, up to a NUL.

* `findEntry_safe_iff`, `insertEntry_safe_iff` — the directories on which the functions end and stay
  inside their buffers;
* `findEntry_of_checked` — on those, `ext2_dir_find_entry` is what it was taken for so far.
-/

namespace Shaunos.Ext2

/-! ## Accesses -/

/-- The messages that are printed. -/
structure Log where
  info : Bool
  error : Bool

/-- How many bytes `memcmp` reads. -/
def memcmpReads (m : Mem) : (off : ℕ) → (s : List (BitVec 8)) → ℕ
  | _, [] => 0
  | off, c :: cs => if m off == c then 1 + memcmpReads m (off + 1) cs else 1

/-- How many bytes `strncmp` reads. -/
def strncmpReads (m : Mem) : (n off : ℕ) → (s : List (BitVec 8)) → ℕ
  | 0, _, _ => 1
  | _ + 1, _, [] => 1
  | n + 1, off, c :: cs => if m off == c then 1 + strncmpReads m n (off + 1) cs else 1

/-- There is a NUL from `off` on before the block ends. -/
def nulIn (fs : Fs) (m : Mem) (off : ℕ) : Bool :=
  (List.range fs.blksize).any fun i => decide (off ≤ i) && m i == 0

/-! ## `ext2_dir_find_entry` -/

/-- What `ext2_dir_find_entry` reads of a record lies inside the block: the header, the name as far
as it is compared, and the whole record if it is copied, or the name up to a NUL if it is printed. -/
def findOk (fs : Fs) (log : Log) (m : Mem) (path : CString) (de : ℕ) : Bool :=
  decide (de + 7 ≤ fs.blksize) &&
    (dNameLen m de != path.bytes.length ||
      decide (de + 8 + memcmpReads m (de + 8) path.bytes ≤ fs.blksize)) &&
    if nameIs m path de then decide (de + realLen (dNameLen m de) ≤ fs.blksize)
    else !log.info || nulIn fs m (de + 8)

/-- The blocks from `blockNr` on. -/
def findFromChecked (fs : Fs) (log : Log) (w : World) (inode : Mem) (path : CString) (scanFuel : ℕ) :
    (fuel blockNr : ℕ) → (blockBuf : Mem) → Except Fault (Option Mem)
  | 0, _, _ => .error .endless
  | fuel + 1, blockNr, blockBuf => do
      let (retval, blockBuf) := inodeReadBlock fs w inode blockNr (blockBuf.memset 0 0 fs.blksize)
      if retval = minusOne ∨ retval = 0 then return none
      else
        match ← checkedScan (dReclen blockBuf) (findOk fs log blockBuf path) (nameIs blockBuf path)
            fs.blksize scanFuel 0 with
        | some de => return some (w.junk.memcpy 0 blockBuf de (realLen (dNameLen blockBuf de)))
        | none => findFromChecked fs log w inode path scanFuel fuel (blockNr + 1) blockBuf

/-- `ext2_dir_find_entry` in the directory with inode `v`. -/
def findEntryChecked (fs : Fs) (log : Log) (w : World) (v : ℕ) (path : CString) (fuel : ℕ) :
    Except Fault (Option Mem) :=
  match rwInodeRead fs w v w.junk with
  | none => .error .callee
  | some read => findFromChecked fs log w (read.getD w.junk) path fuel fuel 0 w.junk

/-! ## `ext2_dir_insert_entry` -/

/-- How the scan of a block ends. -/
inductive InsertEnd where
  /-- The name is there: `-EEXIST`. -/
  | found
  /-- `got_it`, with `real_len`. -/
  | place (de realLen : ℕ)
  | full

/-- `.` and `..`. -/
def dotName : CString := ⟨[0x2E#8], by decide⟩

def dotDotName : CString := ⟨[0x2E#8, 0x2E#8], by decide⟩

def CString.isDots (path : CString) : Bool := path.bytes == [0x2E#8] || path.bytes == [0x2E#8, 0x2E#8]

/-- `strncmp(path, de->d_name, de->d_name_len) == 0`. -/
def nameMatches (m : Mem) (path : CString) (de : ℕ) : Bool :=
  strncmpEq m (dNameLen m de) (de + 8) path.bytes

/-- The scan of a block. A record that is not used and has no length is given 4096 bytes, and the
entries `.` and `..` are inserted by `again`, which is the function itself. -/
def insertScan (fs : Fs) (log : Log) (v inodeNo realBlock : ℕ) (path : CString)
    (again : World → ℕ → CString → Except Fault (ℤ × World)) (last : ℕ) :
    (fuel de : ℕ) → Mem → World → Except Fault (InsertEnd × Mem × World)
  | 0, _, _, _ => .error .endless
  | fuel + 1, de, m, w =>
      if de + 7 > fs.blksize ∨
          de + 8 + strncmpReads m (dNameLen m de) (de + 8) path.bytes > fs.blksize then
        .error .outside
      else if nameMatches m path de then
        if path.isDots then .ok (.place de (realLen (dNameLen m de)), m.set32 de 0, w)
        else if log.error && !nulIn fs m (de + 8) then .error .outside
        else .ok (.found, m, w)
      else if dInode m de = 0 ∧ dReclen m de > realLen path.bytes.length then
        .ok (.place de (realLen (dNameLen m de)), m, w)
      else do
        let (m, w) ←
          if dInode m de = 0 ∧ dReclen m de = 0 then do
            let m := setDReclen m de 4096
            let (_, w) ← again ((rwBlockWrite fs w realBlock m).getD w) inodeNo dotName
            let (_, w) ← again w v dotDotName
            pure (m, w)
          else pure (m, w)
        if log.info && !nulIn fs m (de + 8) then .error .outside
        else if dReclen m de > realLen path.bytes.length + realLen (dNameLen m de) then
          return (.place de (realLen (dNameLen m de)), m, w)
        else if de + dReclen m de ≤ last then
          insertScan fs log v inodeNo realBlock path again last fuel (de + dReclen m de) m w
        else return (.full, m, w)

/-- From `got_it` on: the entry is written to the record at `de`, or behind what that record uses. -/
def placeEntry (fs : Fs) (m : Mem) (de realLen inodeNo : ℕ) (path : CString) : Except Fault Mem :=
  let split := dInode m de ≠ 0
  let at_ := if split then de + realLen else de
  if at_ + 8 + path.bytes.length + 1 > fs.blksize then .error .outside
  else
    let m := if split then setDReclen (setDReclen m at_ (dReclen m de - realLen)) de realLen else m
    let m := m.set32 at_ inodeNo
    let m := m.memcpy (at_ + 8) (fun i => path.bytes.getD i 0) 0 (path.bytes.length + 1)
    let m := Function.update m (at_ + 6) (BitVec.ofNat 8 path.bytes.length)
    .ok (Function.update m (at_ + 8 + path.bytes.length) 0)

/-- What is called and comes back. -/
def called {α : Type} : Option α → Except Fault α
  | none => .error .callee
  | some a => .ok a

/-- A block of the directory, or a new one. Errors on the way are not looked at. -/
def insertBlock (fs : Fs) (w : World) (blockNr : ℕ) (inode blockBuf : Mem) :
    Except Fault (ℕ × Mem × Mem × World) := do
  let (realBlock, blockBuf) := inodeReadBlock fs w inode blockNr blockBuf
  if realBlock = 0 then
    let (realBlock, w) ← called (allocBlock fs w)
    let (_, inode, w) ← called (realBlockWrite fs w inode blockNr realBlock)
    let inode := addSectors fs (setISize inode (iSize inode + fs.blksize))
    let blockBuf := (rwBlockRead fs w realBlock blockBuf).getD blockBuf
    return (realBlock, inode, setDReclen blockBuf 0 fs.blksize, w)
  else return (realBlock, inode, blockBuf, w)

/-- The last place at which a record is looked at: `kaddr`. The block is taken to have 4096 bytes. -/
def lastPlace (m : Mem) : ℕ := 4096 - realLen (dNameLen m 0)

/-- The scan of a block, and the entry if it goes there: the result, if the function is left. -/
def insertIn (fs : Fs) (log : Log) (v inodeNo : ℕ) (path : CString)
    (again : World → ℕ → CString → Except Fault (ℤ × World)) (scanFuel realBlock : ℕ)
    (inode blockBuf : Mem) (w : World) : Except Fault (Option ℤ × Mem × World) := do
  let (scanEnd, blockBuf, w) ← insertScan fs log v inodeNo realBlock path again
    (lastPlace blockBuf) scanFuel 0 blockBuf w
  match scanEnd with
  | .found => return (some (-17), blockBuf, w)
  | .full => return (none, blockBuf, w)
  | .place de realLen =>
      let blockBuf ← placeEntry fs blockBuf de realLen inodeNo path
      let inode := setILinkCnt inode (iLinkCnt inode + 1)
      let w := (rwBlockWrite fs w realBlock blockBuf).getD w
      let written ← called (rwInodeWrite fs w v inode)
      return (some 0, blockBuf, written.getD w)

/-- The blocks from `blockNr` on. -/
def insertFrom (fs : Fs) (log : Log) (v inodeNo : ℕ) (path : CString)
    (again : World → ℕ → CString → Except Fault (ℤ × World)) (scanFuel : ℕ) :
    (fuel blockNr : ℕ) → (inode blockBuf : Mem) → World → Except Fault (ℤ × World)
  | 0, _, _, _, _ => .error .endless
  | fuel + 1, blockNr, inode, blockBuf, w => do
      let (realBlock, inode, blockBuf, w) ← insertBlock fs w blockNr inode blockBuf
      let (retval, blockBuf, w) ← insertIn fs log v inodeNo path again scanFuel realBlock inode
        blockBuf w
      match retval with
      | some retval => return (retval, w)
      | none => insertFrom fs log v inodeNo path again scanFuel fuel (blockNr + 1) inode blockBuf w

/-- `ext2_dir_insert_entry` in the directory with inode `v`, as deep as it calls itself. -/
def insertEntry (fs : Fs) (log : Log) (v fuel : ℕ) :
    (depth : ℕ) → World → (inodeNo : ℕ) → CString → Except Fault (ℤ × World)
  | 0, _, _, _ => .error .endless
  | depth + 1, w, inodeNo, path => do
      let read ← called (rwInodeRead fs w v w.junk)
      insertFrom fs log v inodeNo path (insertEntry fs log v fuel depth) fuel fuel 0
        (read.getD w.junk) w.junk w

/-! ## The blocks of a directory -/

/-- `bs` are the blocks from `nr` on. Of what is in them nothing is known. -/
def BlocksFrom (fs : Fs) (w : World) (inode : Mem) : (nr : ℕ) → (bs : List ℕ) → Prop
  | nr, [] => realBlockRead fs w inode nr = some 0
  | nr, b :: bs => (b ≠ 0 ∧ fs.Addressable b) ∧ realBlockRead fs w inode nr = some b ∧
      BlocksFrom fs w inode (nr + 1) bs

section

variable {fs : Fs} {w : World} {log : Log} {inode inode' buf : Mem} {nr b v fuel scanFuel : ℕ}
  {bs : List ℕ} {path : CString}

theorem SameMap.blocksFrom (h : SameMap inode inode') (hblk : BlocksFrom fs w inode nr bs) :
    BlocksFrom fs w inode' nr bs := by
  induction bs generalizing nr with
  | nil =>
      rw [BlocksFrom, h.realBlockRead]
      exact hblk
  | cons b bs ih =>
      obtain ⟨hb, hlookup, hblk⟩ := hblk
      refine ⟨hb, ?_, ih hblk⟩
      rw [h.realBlockRead]
      exact hlookup

theorem BlocksFrom.length_lt (hblk : BlocksFrom fs w inode nr bs) : nr + bs.length < 2 ^ 32 := by
  induction bs generalizing nr with
  | nil => exact lt_of_realBlockRead hblk
  | cons b bs ih =>
      have := ih hblk.2.2
      simp only [List.length_cons]
      omega

/-- A directory that is well formed has its blocks. -/
theorem Directory.blocksFrom (hd : Directory fs w v bs) :
    BlocksFrom fs w (diskInode fs w v) 0 bs := by
  have key : ∀ cs nr, bs.drop nr = cs → nr ≤ bs.length →
      BlocksFrom fs w (diskInode fs w v) nr cs := by
    intro cs
    induction cs with
    | nil =>
        intro nr hdrop hle
        obtain rfl : nr = bs.length := le_antisymm hle (List.drop_eq_nil_iff.mp hdrop)
        exact hd.stop
    | cons c cs ih =>
        intro nr hdrop hle
        have hget : bs[nr]? = some c := by
          rw [← List.head?_drop, hdrop]
          rfl
        have hlt : nr < bs.length := (List.getElem?_eq_some_iff.mp hget).1
        refine ⟨hd.blocks c (List.mem_of_getElem? hget), hd.lookup nr c hget, ih (nr + 1) ?_ hlt⟩
        rw [← List.tail_drop, hdrop]
        rfl
  exact key bs 0 rfl (Nat.zero_le _)

/-- A block of the directory is read as it is. -/
theorem NoErrors.inodeReadBlock (hh : NoErrors fs w) (hs : fs.Sized)
    (hblk : BlocksFrom fs w inode nr (b :: bs)) (htail : ∀ i, fs.blksize ≤ i → buf i = w.junk i) :
    inodeReadBlock fs w inode nr buf = (b, dirBuf fs w b) := by
  obtain ⟨m, hm⟩ := hh.rwBlockRead b buf
  exact inodeReadBlock_of_read hs hblk.1 hblk.2.1 hm htail

/-! ## When `ext2_dir_find_entry` is safe -/

/-- The records of a block that the search comes to can be looked at. -/
def FindBlockOk (fs : Fs) (log : Log) (w : World) (path : CString) (b : ℕ) : Prop :=
  SafeScan (dReclen (dirBuf fs w b)) (findOk fs log (dirBuf fs w b) path)
    (nameIs (dirBuf fs w b) path) fs.blksize 0

/-- The name is among the records that the search comes to. -/
def FoundIn (fs : Fs) (w : World) (path : CString) (b : ℕ) : Prop :=
  Stops (dReclen (dirBuf fs w b)) (nameIs (dirBuf fs w b) path) fs.blksize 0

/-- The function ends, and stays inside its buffer. -/
def FindSafe (fs : Fs) (log : Log) (w : World) (v : ℕ) (path : CString) : Prop :=
  ∃ fuel r, findEntryChecked fs log w v path fuel = .ok r

/-- The records can be looked at, in all blocks up to the one with the name. -/
def FindFits (fs : Fs) (log : Log) (w : World) (path : CString) (bs : List ℕ) : Prop :=
  UpTo (FindBlockOk fs log w path) (FoundIn fs w path) True bs

theorem memset_tail (htail : ∀ i, fs.blksize ≤ i → buf i = w.junk i) :
    ∀ i, fs.blksize ≤ i → buf.memset 0 0 fs.blksize i = w.junk i := by
  intro i hi
  rw [Mem.memset, if_neg (by omega), htail i hi]

theorem findFits_of_checked {r : Option Mem} (hh : NoErrors fs w) (hs : fs.Sized)
    (hblk : BlocksFrom fs w inode nr bs) (htail : ∀ i, fs.blksize ≤ i → buf i = w.junk i)
    (h : findFromChecked fs log w inode path scanFuel fuel nr buf = .ok r) :
    FindFits fs log w path bs := by
  induction bs generalizing fuel nr buf with
  | nil => trivial
  | cons b bs ih =>
      have hpos := hs.pos
      cases fuel with
      | zero => exact absurd h (by simp [findFromChecked])
      | succ fuel =>
          rw [findFromChecked, hh.inodeReadBlock hs hblk (memset_tail htail)] at h
          simp only at h
          rw [if_neg (by simp [hblk.1.1, (hblk.1.2.ne_minusOne hs).2])] at h
          cases hscan : checkedScan (dReclen (dirBuf fs w b)) (findOk fs log (dirBuf fs w b) path)
            (nameIs (dirBuf fs w b) path) fs.blksize scanFuel 0 with
          | error e =>
              rw [hscan] at h
              exact absurd h (by simp [bind, Except.bind])
          | ok de =>
              rw [hscan] at h
              refine ⟨(checkedScan_spec (by omega) hscan).1, ?_⟩
              cases de with
              | some de => exact Or.inl ((checkedScan_isSome_iff (by omega) hscan).mp rfl)
              | none => exact Or.inr (ih hblk.2.2 (fun i hi => dirBuf_tail hi) h)

/-- The checks do not change what is found. -/
theorem checked_of_findFits (fuel scanFuel : ℕ) (hh : NoErrors fs w) (hs : fs.Sized)
    (hblk : BlocksFrom fs w inode nr bs) (htail : ∀ i, fs.blksize ≤ i → buf i = w.junk i)
    (hfuel : bs.length < fuel) (hscanFuel : fs.blksize ≤ scanFuel)
    (h : FindFits fs log w path bs) :
    ∃ r, findFromChecked fs log w inode path scanFuel fuel nr buf = .ok r ∧
      findFrom fs w inode path fuel nr buf = some r := by
  induction bs generalizing fuel nr buf with
  | nil =>
      obtain ⟨fuel, rfl⟩ : ∃ f, fuel = f + 1 := ⟨fuel - 1, by simp at hfuel; omega⟩
      rw [findFromChecked, findFrom, inodeReadBlock_unmapped hblk]
      exact ⟨none, rfl, rfl⟩
  | cons b bs ih =>
      have hpos := hs.pos
      obtain ⟨fuel, rfl⟩ : ∃ f, fuel = f + 1 := ⟨fuel - 1, by simp at hfuel; omega⟩
      obtain ⟨hok, hrest⟩ := h
      obtain ⟨de, hde⟩ : ∃ de, checkedScan (dReclen (dirBuf fs w b))
          (findOk fs log (dirBuf fs w b) path) (nameIs (dirBuf fs w b) path) fs.blksize fs.blksize 0
            = .ok de := (checkedScan_ok_iff (by omega) (by omega)).mpr hok
      have hscan := checkedScan_mono hde hscanFuel
      have hplain := scan_of_checkedScan hde
      have hne : ¬ (b = minusOne ∨ b = 0) := by
        simp [hblk.1.1, (hblk.1.2.ne_minusOne hs).2]
      rw [findFromChecked, findFrom, hh.inodeReadBlock hs hblk (memset_tail htail)]
      simp only
      rw [if_neg hne, if_neg hne, hscan, hplain]
      cases de with
      | some de => exact ⟨_, rfl, rfl⟩
      | none =>
          have hgo : FindFits fs log w path bs := by
            rcases hrest with hstop | hrest
            · exact absurd ((checkedScan_isSome_iff (by omega) hde).mpr hstop) (by simp)
            · exact hrest
          exact ih fuel hblk.2.2 (fun i hi => dirBuf_tail hi) (by simpa using hfuel) hgo

theorem NoErrors.rwInodeRead_eq {R : Set ℕ} {off : ℕ} (hh : NoErrors fs w) (hs : fs.Sized)
    (hplace : InodePlace fs R w v b off) :
    rwInodeRead fs w v w.junk = some (some (inodeBuf fs w v)) := by
  obtain ⟨m, hm⟩ := hh.rwBlockRead b w.junk
  exact rwInodeRead_of_read hs hplace hm

/-- **When `ext2_dir_find_entry` is safe.** -/
theorem findEntry_safe_iff {R : Set ℕ} {off : ℕ} (hh : NoErrors fs w) (hs : fs.Sized)
    (hsize : 128 ≤ fs.inodeSize) (hplace : InodePlace fs R w v b off)
    (hblk : BlocksFrom fs w (diskInode fs w v) 0 bs) :
    FindSafe fs log w v path ↔ FindFits fs log w path bs := by
  have hblk' : BlocksFrom fs w (inodeBuf fs w v) 0 bs := (sameMap_inodeBuf hsize).blocksFrom hblk
  unfold FindSafe findEntryChecked
  rw [hh.rwInodeRead_eq hs hplace]
  constructor
  · rintro ⟨fuel, r, h⟩
    exact findFits_of_checked hh hs hblk' (fun _ _ => rfl) h
  · intro h
    obtain ⟨r, hr, -⟩ := checked_of_findFits (bs.length + 1 + fs.blksize)
      (bs.length + 1 + fs.blksize) hh hs hblk' (fun _ _ => rfl) (by omega) (by omega) h
    exact ⟨_, r, hr⟩

/-- On these directories, `ext2_dir_find_entry` is what it was taken for. -/
theorem findEntry_of_checked {R : Set ℕ} {off : ℕ} (hh : NoErrors fs w) (hs : fs.Sized)
    (hsize : 128 ≤ fs.inodeSize) (hplace : InodePlace fs R w v b off)
    (hblk : BlocksFrom fs w (diskInode fs w v) 0 bs) (hfit : FindFits fs log w path bs) :
    ∃ r, findEntryChecked fs log w v path (2 ^ 32) = .ok r ∧ findEntry fs w v path = some r := by
  have hblk' : BlocksFrom fs w (inodeBuf fs w v) 0 bs := (sameMap_inodeBuf hsize).blocksFrom hblk
  have hlen := hblk.length_lt
  have hbs := hh.blksize
  unfold findEntryChecked findEntry
  rw [hh.rwInodeRead_eq hs hplace]
  exact checked_of_findFits _ _ hh hs hblk' (fun _ _ => rfl) (by omega) (by omega) hfit

/-! ## When `ext2_dir_insert_entry` is safe -/

/-- The scan stops at the record. -/
def insertStop (m : Mem) (path : CString) (de : ℕ) : Bool :=
  nameMatches m path de ||
    (dInode m de == 0 && decide (realLen path.bytes.length < dReclen m de)) ||
    decide (realLen path.bytes.length + realLen (dNameLen m de) < dReclen m de)

/-- What the scan reads of a record lies inside the block: the header, the name as far as it is
compared, and the name up to a NUL if it is printed. -/
def insertReads (fs : Fs) (log : Log) (m : Mem) (path : CString) (de : ℕ) : Bool :=
  decide (de + 7 ≤ fs.blksize) &&
    decide (de + 8 + strncmpReads m (dNameLen m de) (de + 8) path.bytes ≤ fs.blksize) &&
    if nameMatches m path de then path.isDots || !log.error || nulIn fs m (de + 8)
    else (dInode m de == 0 && decide (realLen path.bytes.length < dReclen m de)) || !log.info ||
      nulIn fs m (de + 8)

/-- Where the entry goes when the scan stops at the record. -/
def placeAt (m : Mem) (path : CString) (de : ℕ) : ℕ :=
  if nameMatches m path de || dInode m de == 0 then de else de + realLen (dNameLen m de)

/-- The entry is written inside the block, if it is written. -/
def placeFits (fs : Fs) (m : Mem) (path : CString) (de : ℕ) : Bool :=
  (nameMatches m path de && !path.isDots) ||
    decide (placeAt m path de + 8 + path.bytes.length + 1 ≤ fs.blksize)

/-- What is read of a record, and what is written if the scan stops at it, lies inside the block. -/
def insertOk (fs : Fs) (log : Log) (m : Mem) (path : CString) (de : ℕ) : Bool :=
  insertReads fs log m path de && (!insertStop m path de || placeFits fs m path de)

/-- The record has no length and is not used: the function gives it one, and calls itself. -/
def repairs (m : Mem) (path : CString) (de : ℕ) : Bool :=
  !nameMatches m path de && dInode m de == 0 && dReclen m de == 0

/-- The end of a scan, and the block after it. -/
def insertEnd (m : Mem) (path : CString) : Option ℕ → InsertEnd × Mem
  | none => (.full, m)
  | some de =>
      if nameMatches m path de then
        if path.isDots then (.place de (realLen (dNameLen m de)), m.set32 de 0) else (.found, m)
      else (.place de (realLen (dNameLen m de)), m)

/-- A scan without a repair. -/
theorem insertScan_eq {inodeNo realBlock last de : ℕ} {m : Mem}
    {again : World → ℕ → CString → Except Fault (ℤ × World)}
    (hrep : ∀ p, Visited (dReclen m) (insertStop m path) (last + 1) de p → repairs m path p = false) :
    insertScan fs log v inodeNo realBlock path again last fuel de m w =
      (checkedScan (dReclen m) (insertReads fs log m path) (insertStop m path) (last + 1) fuel de).map
        fun r => ((insertEnd m path r).1, (insertEnd m path r).2, w) := by
  induction fuel generalizing de with
  | zero => rfl
  | succ fuel ih =>
      have hrep₀ := hrep de .start
      rw [insertScan, checkedScan]
      by_cases hread : de + 7 > fs.blksize ∨
          de + 8 + strncmpReads m (dNameLen m de) (de + 8) path.bytes > fs.blksize
      · have hno : insertReads fs log m path de = false := by
          rcases hread with hread | hread <;> simp [insertReads, hread]
        rw [if_pos hread, if_pos hno]
        rfl
      have hhead : de + 7 ≤ fs.blksize ∧
          de + 8 + strncmpReads m (dNameLen m de) (de + 8) path.bytes ≤ fs.blksize := by omega
      rw [if_neg hread]
      by_cases hname : nameMatches m path de = true
      · -- the name is there
        have hstop : insertStop m path de = true := by simp [insertStop, hname]
        rw [if_pos hname, hstop]
        by_cases hdots : path.isDots = true
        · simp [insertReads, insertEnd, hhead, hname, hdots, Except.map]
        · have hreads : insertReads fs log m path de = !(log.error && !nulIn fs m (de + 8)) := by
            simp [insertReads, hhead, hname, hdots]
          cases hnul : log.error && !nulIn fs m (de + 8)
          · simp [hreads, hdots, hnul, hname, insertEnd, Except.map]
          · simp [hreads, hdots, hnul, Except.map]
      rw [if_neg hname]
      have hname' : nameMatches m path de = false := by simpa using hname
      by_cases hroom : dInode m de = 0 ∧ dReclen m de > realLen path.bytes.length
      · -- there is room in a record that is not used
        have hstop : insertStop m path de = true := by simp [insertStop, hroom]
        rw [if_pos hroom, hstop]
        simp [insertReads, insertEnd, hhead, hname', hroom, Except.map]
      rw [if_neg hroom]
      have hno : ¬ (dInode m de = 0 ∧ dReclen m de = 0) := by
        simpa [repairs, hname'] using hrep₀
      rw [if_neg hno]
      have hreads : insertReads fs log m path de = !(log.info && !nulIn fs m (de + 8)) := by
        have hroom' : (dInode m de == 0 && decide (realLen path.bytes.length < dReclen m de))
            = false := by
          simpa using hroom
        simp [insertReads, hhead, hname', hroom']
      have hstop : insertStop m path de
          = decide (dReclen m de > realLen path.bytes.length + realLen (dNameLen m de)) := by
        have hroom' : (dInode m de == 0 && decide (realLen path.bytes.length < dReclen m de))
            = false := by
          simpa using hroom
        simp [insertStop, hname', hroom']
      simp only [pure_bind]
      cases hnul : log.info && !nulIn fs m (de + 8)
      · have hyes : ¬ insertReads fs log m path de = false := by simp [hreads, hnul]
        rw [if_neg Bool.false_ne_true, if_neg hyes, hstop]
        by_cases hbig : dReclen m de > realLen path.bytes.length + realLen (dNameLen m de)
        · rw [if_pos hbig, if_pos (by simpa using hbig)]
          simp [insertEnd, hname', Except.map, pure, Except.pure]
        have hgo : insertStop m path de = false := by
          rw [hstop]
          simpa using hbig
        rw [if_neg hbig, ← hstop, hgo, if_neg Bool.false_ne_true]
        by_cases hlast : de + dReclen m de ≤ last
        · rw [if_pos hlast, if_neg (by omega)]
          apply ih
          intro p hp
          exact hrep p (hp.head hgo (by omega))
        · rw [if_neg hlast, if_pos (by omega)]
          rfl
      · have hno : insertReads fs log m path de = false := by simp [hreads, hnul]
        rw [if_pos (show true = true from rfl), if_pos hno]
        rfl

/-- The records of a block that the scan comes to can be looked at, and the last one used. -/
def InsertBlockOk (fs : Fs) (log : Log) (m : Mem) (path : CString) : Prop :=
  SafeScan (dReclen m) (insertOk fs log m path) (insertStop m path) (lastPlace m + 1) 0

/-- The scan stops at a record. -/
def InsertStops (m : Mem) (path : CString) : Prop :=
  Stops (dReclen m) (insertStop m path) (lastPlace m + 1) 0

/-- The scan comes to no record that it repairs. -/
def NoRepairIn (m : Mem) (path : CString) : Prop :=
  ∀ p, Visited (dReclen m) (insertStop m path) (lastPlace m + 1) 0 p → repairs m path p = false

theorem placeEntry_ok_iff {m : Mem} {de real inodeNo : ℕ} :
    (∃ m', placeEntry fs m de real inodeNo path = .ok m') ↔
      (if dInode m de = 0 then de else de + real) + 8 + path.bytes.length + 1 ≤ fs.blksize := by
  unfold placeEntry
  by_cases hzero : dInode m de = 0
  · simp only [hzero, ne_eq, not_true_eq_false, if_false, if_true]
    split
    · simp
      omega
    · simp
      omega
  · simp only [hzero, ne_eq, not_false_eq_true, if_true, if_false]
    split
    · simp
      omega
    · simp
      omega

/-- How a scan ends that stopped at a record: the name is there, or the entry is placed. -/
theorem insertEnd_some (fs : Fs) (m : Mem) (path : CString) (de inodeNo : ℕ) :
    (insertEnd m path (some de)).1 = .found ∧ placeFits fs m path de = true ∨
      (insertEnd m path (some de)).1 = .place de (realLen (dNameLen m de)) ∧
        (placeFits fs m path de = true ↔ ∃ m', placeEntry fs (insertEnd m path (some de)).2 de
          (realLen (dNameLen m de)) inodeNo path = .ok m') := by
  unfold insertEnd
  by_cases hname : nameMatches m path de = true
  · by_cases hdots : path.isDots = true
    · have hzero : dInode (m.set32 de 0) de = 0 := Mem.get32_set32_self m de 0
      right
      simp only [hname, hdots, if_true, true_and]
      rw [placeEntry_ok_iff, if_pos hzero]
      simp [placeFits, placeAt, hname, hdots]
    · left
      simp [hname, hdots, placeFits]
  · right
    simp only [hname, if_false, Bool.false_eq_true, true_and]
    rw [placeEntry_ok_iff]
    simp [placeFits, placeAt, hname]

theorem lastPlace_le (m : Mem) : lastPlace m + 1 ≤ 4097 := by
  unfold lastPlace
  omega

/-- What is known when the work on a block ends. -/
theorem insertIn_of_ok {inodeNo realBlock : ℕ} {m m' : Mem} {w' : World} {r : Option ℤ}
    {again : World → ℕ → CString → Except Fault (ℤ × World)} (hrep : NoRepairIn m path)
    (h : insertIn fs log v inodeNo path again scanFuel realBlock inode m w = .ok (r, m', w')) :
    InsertBlockOk fs log m path ∧ (r = none → m' = m ∧ w' = w) ∧
      (r.isSome = true → InsertStops m path) := by
  unfold insertIn at h
  rw [insertScan_eq hrep] at h
  cases hscan : checkedScan (dReclen m) (insertReads fs log m path) (insertStop m path)
    (lastPlace m + 1) scanFuel 0 with
  | error e =>
      rw [hscan] at h
      exact absurd h (by simp [Except.map, bind, Except.bind])
  | ok de =>
      rw [hscan] at h
      obtain ⟨hsafe, hfound, -⟩ := checkedScan_spec (by omega) hscan
      have hstops := checkedScan_isSome_iff (by omega) hscan
      cases de with
      | none =>
          obtain ⟨rfl, rfl, rfl⟩ : none = r ∧ m = m' ∧ w = w' := by
            simpa [Except.map, bind, Except.bind, insertEnd, pure, Except.pure] using h
          refine ⟨fun p hp => ?_, fun _ => ⟨rfl, rfl⟩, fun hr => absurd hr (by simp)⟩
          have hgo : insertStop m path p = false := by
            by_contra hstop
            exact absurd (hfound p hp (by simpa using hstop)) (by simp)
          refine ⟨?_, (hsafe p hp).2⟩
          simp [insertOk, (hsafe p hp).1, hgo]
      | some de =>
          have hfits : placeFits fs m path de = true ∧ r.isSome = true := by
            rcases insertEnd_some fs m path de inodeNo with ⟨hend, hfits⟩ | ⟨hend, hfits⟩
            · simp only [Except.map, bind, Except.bind, hend] at h
              injection h with h
              injection h with hr
              exact ⟨hfits, hr ▸ rfl⟩
            · simp only [Except.map, bind, Except.bind, hend] at h
              cases hplace : placeEntry fs (insertEnd m path (some de)).2 de
                (realLen (dNameLen m de)) inodeNo path with
              | error e =>
                  rw [hplace] at h
                  exact absurd h (by simp)
              | ok m₂ =>
                  rw [hplace] at h
                  refine ⟨hfits.mpr ⟨m₂, hplace⟩, ?_⟩
                  simp only at h
                  split at h
                  · exact absurd h (by simp)
                  · injection h with h
                    injection h with hr
                    exact hr ▸ rfl
          refine ⟨fun p hp => ?_, fun hr => absurd hfits.2 (by simp [hr]), fun _ => hstops.mp rfl⟩
          obtain ⟨hreads, hlen⟩ := hsafe p hp
          refine ⟨?_, hlen⟩
          by_cases hstop : insertStop m path p = true
          · obtain rfl := Option.some.inj (hfound p hp hstop)
            simp [insertOk, hreads, hfits.1]
          · simp [insertOk, hreads, hstop]

theorem rwInodeWrite_isSome (fs : Fs) (w : World) (inode : Mem) (hv : v ≠ 0) :
    ∃ written, rwInodeWrite fs w v inode = some written := by
  unfold rwInodeWrite inodeToBlock
  rw [if_neg (by omega)]
  exact ⟨_, rfl⟩

/-- The work on a block ends when its records allow it. -/
theorem exists_insertIn {inodeNo realBlock : ℕ} {m : Mem}
    {again : World → ℕ → CString → Except Fault (ℤ × World)} (hv : v ≠ 0)
    (hscanFuel : 4097 ≤ scanFuel) (hrep : NoRepairIn m path) (hok : InsertBlockOk fs log m path) :
    ∃ r m' w', insertIn fs log v inodeNo path again scanFuel realBlock inode m w = .ok (r, m', w') ∧
      (InsertStops m path → r.isSome = true) := by
  have hreads : SafeScan (dReclen m) (insertReads fs log m path) (insertStop m path)
      (lastPlace m + 1) 0 := by
    intro p hp
    obtain ⟨hall, hlen⟩ := hok p hp
    exact ⟨(Bool.and_eq_true_iff.mp hall).1, hlen⟩
  obtain ⟨de, hscan⟩ := (checkedScan_ok_iff (by omega)
    (show lastPlace m + 1 - 0 ≤ scanFuel from (lastPlace_le m).trans hscanFuel)).mpr hreads
  obtain ⟨-, -, hmem⟩ := checkedScan_spec (by omega) hscan
  have hstops := checkedScan_isSome_iff (by omega) hscan
  unfold insertIn
  rw [insertScan_eq hrep, hscan]
  cases de with
  | none => exact ⟨none, m, w, rfl, fun hstop => absurd (hstops.mpr hstop) (by simp)⟩
  | some de =>
      obtain ⟨hp, hstop⟩ := hmem de rfl
      have hfits : placeFits fs m path de = true := by
        have hall := (hok de hp).1
        simp only [insertOk, hstop, Bool.not_true, Bool.false_or, Bool.and_eq_true] at hall
        exact hall.2
      rcases insertEnd_some fs m path de inodeNo with ⟨hend, -⟩ | ⟨hend, hplace⟩
      · simp only [Except.map, bind, Except.bind, hend]
        exact ⟨_, _, _, rfl, fun _ => rfl⟩
      · obtain ⟨m₂, hm₂⟩ := hplace.mp hfits
        obtain ⟨written, hwritten⟩ := rwInodeWrite_isSome fs
          ((rwBlockWrite fs w realBlock m₂).getD w) (setILinkCnt inode (iLinkCnt inode + 1)) hv
        simp only [Except.map, bind, Except.bind, hend, hm₂, hwritten, called]
        exact ⟨_, _, _, rfl, fun _ => rfl⟩

/-! ### The whole search -/

/-- The new block of a directory that is full, as it stands in the buffer. -/
def grownBlock (fs : Fs) (w : World) (inode : Mem) (nr : ℕ) (buf : Mem) : Option Mem := do
  let (realBlock, w) ← allocBlock fs w
  let (_, _, w) ← realBlockWrite fs w inode nr realBlock
  return setDReclen ((rwBlockRead fs w realBlock buf).getD buf) 0 fs.blksize

/-- The block after the last is one that was free, and what is taken for its first record can be
looked at and used. -/
def GrowFits (fs : Fs) (log : Log) (w : World) (inode : Mem) (nr : ℕ) (buf : Mem) (path : CString) :
    Prop :=
  ∃ m, grownBlock fs w inode nr buf = some m ∧ insertOk fs log m path 0 = true ∧
    insertStop m path 0 = true

/-- The blocks in the buffer, one after the other: the last of them. -/
def lastBuf (fs : Fs) (w : World) (buf : Mem) (bs : List ℕ) : Mem :=
  bs.foldl (fun _ b => dirBuf fs w b) buf

/-- The records can be looked at and the place for the entry used, in all blocks up to the one where
the scan stops, or else in the new block. -/
def InsertFitsFrom (fs : Fs) (log : Log) (w : World) (inode : Mem) (nr : ℕ) (buf : Mem)
    (path : CString) (bs : List ℕ) : Prop :=
  UpTo (fun b => InsertBlockOk fs log (dirBuf fs w b) path)
    (fun b => InsertStops (dirBuf fs w b) path)
    (GrowFits fs log w inode (nr + bs.length) (lastBuf fs w buf bs) path) bs

/-- No record is repaired. -/
def NoRepairFrom (fs : Fs) (w : World) (inode : Mem) (nr : ℕ) (buf : Mem) (path : CString)
    (bs : List ℕ) : Prop :=
  UpTo (fun b => NoRepairIn (dirBuf fs w b) path) (fun b => InsertStops (dirBuf fs w b) path)
    (∀ m, grownBlock fs w inode (nr + bs.length) (lastBuf fs w buf bs) = some m →
      NoRepairIn m path) bs

section

variable {m : Mem}

theorem dReclen_setDReclen (m : Mem) (de x : ℕ) : dReclen (setDReclen m de x) de = x % 2 ^ 16 :=
  Mem.get16_set16_self m (de + 4) x

/-- The first record of a new block is long enough for every name, unless it has no length at all. -/
theorem insertStop_grown (hs : fs.Sized) (hsize : fs.blksize ≤ 65536)
    (hpath : path.bytes.length ≤ 256) (hlen : dReclen m 0 = fs.blksize % 2 ^ 16)
    (hok : InsertBlockOk fs log m path) : insertStop m path 0 = true := by
  have hpos := hs.pos
  obtain ⟨-, hstop | hlt⟩ := hok 0 .start
  · exact hstop
  · have hname : dNameLen m 0 < 256 := (m 6).isLt
    have hfull : dReclen m 0 = fs.blksize := by omega
    have hroom : realLen path.bytes.length + realLen (dNameLen m 0) < dReclen m 0 := by
      unfold realLen
      omega
    simp [insertStop, hroom]

/-- A scan that stops at once comes to nothing else. -/
theorem insertBlockOk_of_head (hok : insertOk fs log m path 0 = true)
    (hstop : insertStop m path 0 = true) :
    InsertBlockOk fs log m path ∧ InsertStops m path := by
  refine ⟨fun p hp => ?_, 0, .start, hstop⟩
  rcases hp.cases_head with rfl | ⟨hgo, -⟩
  · exact ⟨hok, Or.inl hstop⟩
  · exact absurd hgo (by simp [hstop])

/-- What the buffer holds when the directory gets a new block. -/
theorem grownBlock_eq (hblk : BlocksFrom fs w inode nr []) :
    grownBlock fs w inode nr buf = match insertBlock fs w nr inode buf with
      | .ok r => some r.2.2.1
      | .error _ => none := by
  unfold insertBlock grownBlock
  rw [inodeReadBlock_unmapped hblk]
  cases halloc : allocBlock fs w with
  | none => simp [called, bind, Except.bind]
  | some a =>
      cases hmap : realBlockWrite fs a.2 inode nr a.1 with
      | none => simp [called, bind, Except.bind, hmap]
      | some b => simp [called, bind, Except.bind, hmap, pure, Except.pure]

/-- A block of the directory is looked at as it is. -/
theorem insertBlock_mapped (hh : NoErrors fs w) (hs : fs.Sized)
    (hblk : BlocksFrom fs w inode nr (b :: bs)) (htail : ∀ i, fs.blksize ≤ i → buf i = w.junk i) :
    insertBlock fs w nr inode buf = .ok (b, inode, dirBuf fs w b, w) := by
  unfold insertBlock
  rw [hh.inodeReadBlock hs hblk htail]
  simp only
  rw [if_neg hblk.1.1]
  rfl

theorem dReclen_grownBlock (h : grownBlock fs w inode nr buf = some m) :
    dReclen m 0 = fs.blksize % 2 ^ 16 := by
  unfold grownBlock at h
  simp only [Option.bind_eq_bind, Option.bind_eq_some_iff, Option.pure_def, Option.some.injEq] at h
  obtain ⟨a, -, b, -, rfl⟩ := h
  exact dReclen_setDReclen _ _ _

end

section

variable {inodeNo : ℕ} {again : World → ℕ → CString → Except Fault (ℤ × World)}

theorem insertFits_of_ok {r : ℤ × World} (hh : NoErrors fs w) (hs : fs.Sized)
    (hpath : path.bytes.length ≤ 256) (hblk : BlocksFrom fs w inode nr bs)
    (htail : ∀ i, fs.blksize ≤ i → buf i = w.junk i)
    (hrep : NoRepairFrom fs w inode nr buf path bs)
    (h : insertFrom fs log v inodeNo path again scanFuel fuel nr inode buf w = .ok r) :
    InsertFitsFrom fs log w inode nr buf path bs := by
  induction bs generalizing fuel nr buf with
  | nil =>
      cases fuel with
      | zero => exact absurd h (by simp [insertFrom])
      | succ fuel =>
          have hgrown := @grownBlock_eq _ _ _ buf _ hblk
          rw [insertFrom] at h
          cases hins : insertBlock fs w nr inode buf with
          | error e =>
              rw [hins] at h
              exact absurd h (by simp [bind, Except.bind])
          | ok a =>
              obtain ⟨rb, inode', m, w'⟩ := a
              rw [hins] at h hgrown
              simp only [bind, Except.bind] at h
              cases hin : insertIn fs log v inodeNo path again scanFuel rb inode' m w' with
              | error e =>
                  rw [hin] at h
                  exact absurd h (by simp)
              | ok b =>
                  obtain ⟨hok, -⟩ := insertIn_of_ok (hrep m hgrown) hin
                  have hstop := insertStop_grown hs hh.blksize hpath (dReclen_grownBlock hgrown) hok
                  exact ⟨m, hgrown, (hok 0 .start).1, hstop⟩
  | cons b bs ih =>
      cases fuel with
      | zero => exact absurd h (by simp [insertFrom])
      | succ fuel =>
          obtain ⟨hrep₀, hrep⟩ := hrep
          rw [insertFrom, insertBlock_mapped hh hs hblk htail] at h
          simp only [bind, Except.bind] at h
          cases hin : insertIn fs log v inodeNo path again scanFuel b inode (dirBuf fs w b) w with
          | error e =>
              rw [hin] at h
              exact absurd h (by simp)
          | ok a =>
              obtain ⟨retval, m', w'⟩ := a
              obtain ⟨hok, hgo, hend⟩ := insertIn_of_ok hrep₀ hin
              refine ⟨hok, ?_⟩
              rw [hin] at h
              cases retval with
              | some retval => exact Or.inl (hend rfl)
              | none =>
                  obtain ⟨rfl, rfl⟩ := hgo rfl
                  rcases hrep with hstop | hrep
                  · exact Or.inl hstop
                  · right
                    rw [List.length_cons, Nat.add_comm bs.length 1, ← Nat.add_assoc] at hrep ⊢
                    exact ih hblk.2.2 (fun i hi => dirBuf_tail hi) hrep h

theorem insert_of_fits (fuel scanFuel : ℕ) (hh : NoErrors fs w) (hs : fs.Sized) (hv : v ≠ 0)
    (hblk : BlocksFrom fs w inode nr bs) (htail : ∀ i, fs.blksize ≤ i → buf i = w.junk i)
    (hfuel : bs.length < fuel) (hscanFuel : 4097 ≤ scanFuel)
    (hrep : NoRepairFrom fs w inode nr buf path bs)
    (hfit : InsertFitsFrom fs log w inode nr buf path bs) :
    ∃ r, insertFrom fs log v inodeNo path again scanFuel fuel nr inode buf w = .ok r := by
  induction bs generalizing fuel nr buf with
  | nil =>
      obtain ⟨fuel, rfl⟩ : ∃ f, fuel = f + 1 := ⟨fuel - 1, by simp at hfuel; omega⟩
      obtain ⟨m, hgrown, hok, hstop⟩ := hfit
      obtain ⟨hblock, hstops⟩ := insertBlockOk_of_head hok hstop
      have heq := @grownBlock_eq _ _ _ buf _ hblk
      rw [insertFrom]
      cases hins : insertBlock fs w nr inode buf with
      | error e =>
          rw [hins] at heq
          exact absurd (hgrown.symm.trans heq) (by simp)
      | ok a =>
          obtain ⟨rb, inode', m', w'⟩ := a
          rw [hins] at heq
          obtain rfl := Option.some.inj (hgrown.symm.trans heq)
          obtain ⟨r, m₂, w₂, hin, hend⟩ := @exists_insertIn _ w' log inode' _ _ path inodeNo rb _
            again hv hscanFuel (hrep m hgrown) hblock
          obtain ⟨retval, rfl⟩ := Option.isSome_iff_exists.mp (hend hstops)
          simp only [bind, Except.bind, hin]
          exact ⟨_, rfl⟩
  | cons b bs ih =>
      obtain ⟨fuel, rfl⟩ : ∃ f, fuel = f + 1 := ⟨fuel - 1, by simp at hfuel; omega⟩
      obtain ⟨hrep₀, hrep⟩ := hrep
      obtain ⟨hok, hfit⟩ := hfit
      obtain ⟨r, m', w', hin, hend⟩ := @exists_insertIn _ w log inode _ _ path inodeNo b _
        again hv hscanFuel hrep₀ hok
      rw [insertFrom, insertBlock_mapped hh hs hblk htail]
      simp only [bind, Except.bind, hin]
      cases r with
      | some retval => exact ⟨_, rfl⟩
      | none =>
          obtain ⟨-, hgo, -⟩ := insertIn_of_ok hrep₀ hin
          obtain ⟨hm, hw⟩ := hgo rfl
          have hno : ¬ InsertStops (dirBuf fs w b) path := fun hstop =>
            absurd (hend hstop) (by simp)
          have hrep := hrep.resolve_left hno
          have hfit := hfit.resolve_left hno
          rw [List.length_cons, Nat.add_comm bs.length 1, ← Nat.add_assoc] at hrep hfit
          simp only [hm, hw]
          exact ih fuel hblk.2.2 (fun i hi => dirBuf_tail hi) (by simpa using hfuel) hrep hfit

end

/-- The function ends, and stays inside its buffer. -/
def InsertSafe (fs : Fs) (log : Log) (w : World) (v inodeNo : ℕ) (path : CString) : Prop :=
  ∃ fuel depth r, insertEntry fs log v fuel depth w inodeNo path = .ok r

def InsertFits (fs : Fs) (log : Log) (w : World) (v : ℕ) (path : CString) (bs : List ℕ) : Prop :=
  InsertFitsFrom fs log w (inodeBuf fs w v) 0 w.junk path bs

def NoRepair (fs : Fs) (w : World) (v : ℕ) (path : CString) (bs : List ℕ) : Prop :=
  NoRepairFrom fs w (inodeBuf fs w v) 0 w.junk path bs

/-- **When `ext2_dir_insert_entry` is safe.** -/
theorem insertEntry_safe_iff {R : Set ℕ} {off inodeNo : ℕ} (hh : NoErrors fs w) (hs : fs.Sized)
    (hsize : 128 ≤ fs.inodeSize) (hplace : InodePlace fs R w v b off)
    (hblk : BlocksFrom fs w (diskInode fs w v) 0 bs) (hpath : path.bytes.length ≤ 256)
    (hrep : NoRepair fs w v path bs) :
    InsertSafe fs log w v inodeNo path ↔ InsertFits fs log w v path bs := by
  have hblk' : BlocksFrom fs w (inodeBuf fs w v) 0 bs := (sameMap_inodeBuf hsize).blocksFrom hblk
  have hread := hh.rwInodeRead_eq hs hplace
  have hv : v ≠ 0 := by
    rintro rfl
    exact absurd hplace.1 (by simp [inodeToBlock])
  constructor
  · rintro ⟨fuel, depth, r, h⟩
    cases depth with
    | zero => exact absurd h (by simp [insertEntry])
    | succ depth =>
        rw [insertEntry, hread] at h
        exact insertFits_of_ok hh hs hpath hblk' (fun _ _ => rfl) hrep h
  · intro hfit
    obtain ⟨r, hr⟩ := @insert_of_fits _ _ log _ _ _ _ _ path inodeNo
      (insertEntry fs log v (bs.length + 4097) 0) (bs.length + 4097) (bs.length + 4097) hh hs hv hblk'
      (fun _ _ => rfl) (by omega) (by omega) hrep hfit
    refine ⟨bs.length + 4097, 1, r, ?_⟩
    rw [insertEntry, hread]
    exact hr

end

/-! ## A directory with a length that was overwritten -/

/-- The directory with `.`, `..` and `a`, where `d_reclen` of `.` is `len`. -/
def dotLen (len : ℕ) : World := { oneDir 5 with disk := (oneDir 5).disk.set16 40964 len }

def aName : CString := ⟨[0x61#8], by decide⟩

def bName : CString := ⟨[0x62#8], by decide⟩

theorem dotLen_noErrors (len : ℕ) : NoErrors (almostFullFs 1 0) (dotLen len) :=
  ⟨fun _ => rfl, fun _ => rfl, by norm_num [almostFullFs]⟩

theorem dotLen_place (len : ℕ) : InodePlace (almostFullFs 1 0) ∅ (dotLen len) 11 4 1280 :=
  oneFile_place 2048

theorem dotLen_blocks {len : ℕ} (hlen : len = 0 ∨ len = 12) : BlocksFrom (almostFullFs 1 0) (dotLen len)
    (diskInode (almostFullFs 1 0) (dotLen len) 11) 0 [20] := by
  have hb : 20 ≠ 0 ∧ (almostFullFs 1 0).Addressable 20 := by
    unfold Fs.Addressable almostFullFs
    norm_num
  have hlookup : realBlockRead (almostFullFs 1 0) (dotLen len)
        (diskInode (almostFullFs 1 0) (dotLen len) 11) 0 = some 20 ∧
      realBlockRead (almostFullFs 1 0) (dotLen len)
        (diskInode (almostFullFs 1 0) (dotLen len) 11) 1 = some 0 := by
    rcases hlen with rfl | rfl <;> decide +kernel
  exact ⟨hb, hlookup⟩

end Shaunos.Ext2
