import Shaunos.Common.Tiling
import Shaunos.Ext2.MapLaw
import Shaunos.Ext2.WriteLaw

/-!
# Directories

Reference: `Kernel/ext2.c` (`ext2_dir_find_entry`), `Include/kernel/ext2.h`, `lib/string.c`.

A directory is a file whose blocks are cut into records. A record names its own length, the length of
its name, an inode, and the name, which no NUL need follow. The functions that work on directories
read a block into a buffer from `kmalloc`, and some of them look behind its end.

* `findEntry_eq` — `ext2_dir_find_entry` returns the first record with the name.
-/

namespace Shaunos.Ext2

/-! ## Strings -/

/-- A string of C, without its final NUL. -/
structure CString where
  bytes : List (BitVec 8)
  noNul : 0#8 ∉ bytes

/-- `memcmp(m + off, s, strlen(s)) == 0`. -/
def memcmpEq (m : Mem) : (off : ℕ) → (s : List (BitVec 8)) → Bool
  | _, [] => true
  | off, c :: cs => m off == c && memcmpEq m (off + 1) cs

/-- `strcmp(m + off, s) == 0`. The bytes of `s` are not 0, so the comparison goes on as long as they
agree. -/
def strcmpEq (m : Mem) : (off : ℕ) → (s : List (BitVec 8)) → Bool
  | off, [] => m off == 0
  | off, c :: cs => m off == c && strcmpEq m (off + 1) cs

/-- `strncmp(s, m + off, n) == 0`. The loop stops after `n` bytes that agree, and the next two bytes
are compared. -/
def strncmpEq (m : Mem) : (n off : ℕ) → (s : List (BitVec 8)) → Bool
  | 0, off, s => s.headD 0 == m off
  | _ + 1, off, [] => m off == 0
  | n + 1, off, c :: cs => m off == c && strncmpEq m n (off + 1) cs

/-! ## Records

`ext2_dir_t` has `d_inode`, `d_reclen`, `d_name_len`, a type and `d_name` at the offsets 0, 4, 6, 7
and 8. -/

def dInode (m : Mem) (de : ℕ) : ℕ := m.get32 de

def dReclen (m : Mem) (de : ℕ) : ℕ := m.get16 (de + 4)

def dNameLen (m : Mem) (de : ℕ) : ℕ := (m (de + 6)).toNat

def setDReclen (m : Mem) (de v : ℕ) : Mem := m.set16 (de + 4) v

/-- `EXT2_DIR_REAL_LEN`: the name and what stands before it, rounded up to a multiple of 4. -/
def realLen (nameLen : ℕ) : ℕ := (nameLen + 11) / 4 * 4

/-- The name of a record. -/
def dName (m : Mem) (de : ℕ) : List (BitVec 8) :=
  (List.range (dNameLen m de)).map fun i => m (de + 8 + i)

/-- The comparison of `ext2_dir_find_entry`. -/
def nameIs (m : Mem) (path : CString) (de : ℕ) : Bool :=
  dNameLen m de == path.bytes.length && memcmpEq m (de + 8) path.bytes

/-! ## `ext2_dir_find_entry` -/

/-- The blocks from `blockNr` on: a copy of the record. -/
def findFrom (fs : Fs) (w : World) (inode : Mem) (path : CString) :
    (fuel blockNr : ℕ) → (blockBuf : Mem) → Option (Option Mem)
  | 0, _, _ => none
  | fuel + 1, blockNr, blockBuf => do
      let (retval, blockBuf) := inodeReadBlock fs w inode blockNr (blockBuf.memset 0 0 fs.blksize)
      if retval = minusOne ∨ retval = 0 then return none
      else
        match ← scan (dReclen blockBuf) (nameIs blockBuf path) fs.blksize fs.blksize 0 with
        | some de => return some (w.junk.memcpy 0 blockBuf de (realLen (dNameLen blockBuf de)))
        | none => findFrom fs w inode path fuel (blockNr + 1) blockBuf

/-- `ext2_dir_find_entry` in the directory with inode `v`. An error of `ext2_rw_inode` is -5 and not
-1, so it is not noticed. There is no result when the search does not end. -/
def findEntry (fs : Fs) (w : World) (v : ℕ) (path : CString) : Option (Option Mem) := do
  let inode := (← rwInodeRead fs w v w.junk).getD w.junk
  findFrom fs w inode path (2 ^ 32) 0 w.junk

/-- The inode that a name leads to. -/
def resolve (fs : Fs) (w : World) (v : ℕ) (path : CString) : Option (Option ℕ) :=
  (findEntry fs w v path).map fun d => d.map fun d => dInode d 0

/-! ## What a directory holds -/

/-- A block as it is read into a buffer from `kmalloc`. -/
def dirBuf (fs : Fs) (w : World) (b : ℕ) : Mem := fun i =>
  if i < fs.blksize then w.block fs b i else w.junk i

/-- The records of a block. -/
def records (fs : Fs) (m : Mem) : List ℕ := starts (dReclen m) fs.blksize fs.blksize 0

/-- The records of a directory with the blocks `bs`. -/
def dirRecords (fs : Fs) (w : World) (bs : List ℕ) : List (ℕ × ℕ) :=
  bs.flatMap fun b => (records fs (dirBuf fs w b)).map fun p => (b, p)

/-- The records of a block tile it, and each is as long as its name needs. -/
structure Tiled (fs : Fs) (m : Mem) : Prop where
  tiling : Tiling (dReclen m) 0 (records fs m) fs.blksize
  fits : ∀ p ∈ records fs m, realLen (dNameLen m p) ≤ dReclen m p
  aligned : ∀ p ∈ records fs m, 4 ∣ dReclen m p

/-- `bs` are the blocks of the directory with inode `v`, and records tile each of them. -/
structure Directory (fs : Fs) (w : World) (v : ℕ) (bs : List ℕ) : Prop where
  lookup : ∀ nr b, bs[nr]? = some b → realBlockRead fs w (diskInode fs w v) nr = some b
  stop : realBlockRead fs w (diskInode fs w v) bs.length = some 0
  blocks : ∀ b ∈ bs, b ≠ 0 ∧ fs.Addressable b
  tiled : ∀ b ∈ bs, Tiled fs (dirBuf fs w b)

/-! ## Comparisons -/

section

variable {m m' : Mem} {off de n : ℕ} {s : List (BitVec 8)} {path : CString}

theorem memcmpEq_iff : memcmpEq m off s = true ↔ ∀ i (h : i < s.length), m (off + i) = s[i] := by
  induction s generalizing off with
  | nil => simp [memcmpEq]
  | cons c cs ih =>
      rw [memcmpEq, Bool.and_eq_true, beq_iff_eq, ih]
      constructor
      · rintro ⟨h₀, h⟩ i hi
        cases i with
        | zero => exact h₀
        | succ i =>
            rw [show off + (i + 1) = off + 1 + i by omega]
            exact h i (by simpa using hi)
      · intro h
        refine ⟨h 0 (by simp), fun i hi => ?_⟩
        rw [show off + 1 + i = off + (i + 1) by omega]
        exact h (i + 1) (by simpa using hi)

/-- `strcmp` also looks at the byte behind the name. -/
theorem strcmpEq_eq (m : Mem) (off : ℕ) (s : List (BitVec 8)) :
    strcmpEq m off s = (memcmpEq m off s && m (off + s.length) == 0) := by
  induction s generalizing off with
  | nil => rfl
  | cons c cs ih =>
      rw [strcmpEq, memcmpEq, ih, Bool.and_assoc, List.length_cons,
        show off + 1 + cs.length = off + (cs.length + 1) by omega]

theorem memcmpEq_congr (h : ∀ i < s.length, m' (off + i) = m (off + i)) :
    memcmpEq m' off s = memcmpEq m off s := by
  rw [Bool.eq_iff_iff, memcmpEq_iff, memcmpEq_iff]
  exact forall_congr' fun i => forall_congr' fun hi => by rw [h i hi]

theorem nameIs_iff : nameIs m path de = true ↔ dName m de = path.bytes := by
  rw [nameIs, Bool.and_eq_true, beq_iff_eq, memcmpEq_iff, dName]
  constructor
  · rintro ⟨hlen, h⟩
    apply List.ext_getElem (by simpa using hlen)
    intro i h₁ h₂
    simp only [List.getElem_map, List.getElem_range]
    exact h i h₂
  · intro h
    have hlen : dNameLen m de = path.bytes.length := by simpa using congrArg List.length h
    refine ⟨hlen, fun i hi => ?_⟩
    have hget := List.getElem_of_eq h (show i < _ by simp; omega)
    simpa using hget

/-- A record that is not touched has the same fields. -/
theorem record_congr (h : ∀ i, de ≤ i → i < de + realLen (dNameLen m de) → m' i = m i) :
    dInode m' de = dInode m de ∧ dReclen m' de = dReclen m de ∧ dNameLen m' de = dNameLen m de ∧
      dName m' de = dName m de := by
  have hlen : 8 + dNameLen m de ≤ realLen (dNameLen m de) := by
    unfold realLen
    omega
  have hname : dNameLen m' de = dNameLen m de := by
    unfold dNameLen
    rw [h (de + 6) (by omega) (by omega)]
  refine ⟨Mem.readLE_congr fun i h₁ h₂ => h i h₁ (by omega),
    Mem.readLE_congr fun i h₁ h₂ => h i (by omega) (by omega), hname, ?_⟩
  unfold dName
  rw [hname]
  apply List.map_congr_left
  intro i hi
  exact h _ (by omega) (by have := List.mem_range.mp hi; omega)

end

/-! ## Reading a directory -/

/-- An inode as it is read into a buffer from `kmalloc`. -/
def inodeBuf (fs : Fs) (w : World) (v : ℕ) : Mem := fun i =>
  if i < fs.inodeSize then diskInode fs w v i else w.junk i

section

variable {fs : Fs} {w w' : World} {S R : Set ℕ} {b v nr boff : ℕ} {bs : List ℕ} {inode buf : Mem}
  {path : CString}

/-- A block that is read into a buffer from `kmalloc`, or into one that is used again. -/
theorem eq_dirBuf_of_read {m : Mem} (hs : fs.Sized) (h : rwBlockRead fs w b buf = some m)
    (htail : ∀ i, fs.blksize ≤ i → buf i = w.junk i) : m = dirBuf fs w b := by
  funext i
  unfold dirBuf
  split
  · rename_i hi
    exact rwBlockRead_eq_some hs h i hi
  · rename_i hi
    unfold rwBlockRead blockRead at h
    simp only [hs.sectors] at h
    split at h
    · simp at h
    · obtain rfl := Option.some.inj h
      rw [Mem.memcpy, if_neg (by omega), htail i (by omega)]

theorem Healthy.rwBlockRead_eq (hh : Healthy fs w) (hs : fs.Sized)
    (htail : ∀ i, fs.blksize ≤ i → buf i = w.junk i) :
    Ext2.rwBlockRead fs w b buf = some (dirBuf fs w b) := by
  obtain ⟨m, hm⟩ := hh.rwBlockRead b buf
  rw [hm, eq_dirBuf_of_read hs hm htail]

theorem rwInodeRead_of_read {m : Mem} (hs : fs.Sized) (hplace : InodePlace fs R w v b boff)
    (hm : rwBlockRead fs w b w.junk = some m) :
    rwInodeRead fs w v w.junk = some (some (inodeBuf fs w v)) := by
  have hread : ∃ m', rwInodeRead fs w v w.junk = some (some m') := by
    unfold rwInodeRead
    rw [hplace.1]
    simp only [Option.bind_eq_bind, Option.bind_some, hm]
    exact ⟨_, rfl⟩
  obtain ⟨m', hm'⟩ := hread
  rw [hm']
  congr 2
  funext i
  unfold inodeBuf
  split
  · rename_i hi
    exact rwInodeRead_eq_some hs hplace hm' i hi
  · rename_i hi
    unfold rwInodeRead at hm'
    rw [hplace.1] at hm'
    simp only [Option.bind_eq_bind, Option.bind_some, Option.pure_def, Option.some.injEq] at hm'
    obtain ⟨tmp, -, rfl⟩ := Option.map_eq_some_iff.mp hm'
    rw [Mem.memcpy, if_neg (by omega)]

theorem Healthy.rwInodeRead_eq (hh : Healthy fs w) (hs : fs.Sized)
    (hplace : InodePlace fs R w v b boff) :
    rwInodeRead fs w v w.junk = some (some (inodeBuf fs w v)) :=
  rwInodeRead_of_read hs hplace (hh.rwBlockRead_eq hs fun _ _ => rfl)

/-- An inode has the same map and the same fields in a buffer as on disk. -/
theorem inodeBuf_apply (hsize : 128 ≤ fs.inodeSize) {i : ℕ} (hi : i < 128) :
    inodeBuf fs w v i = diskInode fs w v i := if_pos (by omega)

theorem sameMap_inodeBuf (hsize : 128 ≤ fs.inodeSize) :
    SameMap (diskInode fs w v) (inodeBuf fs w v) := fun _ _ =>
  Mem.readLE_congr fun _ _ _ => inodeBuf_apply hsize (by omega)

theorem iLinkCnt_inodeBuf (hsize : 128 ≤ fs.inodeSize) :
    iLinkCnt (inodeBuf fs w v) = iLinkCnt (diskInode fs w v) :=
  Mem.readLE_congr fun _ _ _ => inodeBuf_apply hsize (by omega)

theorem iMode_inodeBuf (hsize : 128 ≤ fs.inodeSize) :
    iMode (inodeBuf fs w v) = iMode (diskInode fs w v) :=
  Mem.readLE_congr fun _ _ _ => inodeBuf_apply hsize (by omega)

/-- The number of a block within reach is not one of the results that stand for an error. -/
theorem Fs.Addressable.ne_minusOne (hs : fs.Sized) (hb : fs.Addressable b) :
    b < 2 ^ 31 ∧ b ≠ minusOne := by
  have hpos := hs.pos
  have hmul : b * 1024 ≤ b * fs.blksize := Nat.mul_le_mul_left b hpos
  unfold Fs.Addressable at hb
  unfold minusOne
  omega

theorem inodeReadBlock_of_read {m : Mem} (hs : fs.Sized) (hb : b ≠ 0 ∧ fs.Addressable b)
    (hlookup : realBlockRead fs w inode nr = some b) (hread : rwBlockRead fs w b buf = some m)
    (htail : ∀ i, fs.blksize ≤ i → buf i = w.junk i) :
    inodeReadBlock fs w inode nr buf = (b, dirBuf fs w b) := by
  unfold inodeReadBlock
  rw [hlookup, Option.getD_some]
  simp only
  rw [if_neg (hb.2.ne_minusOne hs).2, if_neg hb.1, hread, eq_dirBuf_of_read hs hread htail]

theorem inodeReadBlock_mapped (hh : Healthy fs w) (hs : fs.Sized) (hb : b ≠ 0 ∧ fs.Addressable b)
    (hlookup : realBlockRead fs w inode nr = some b)
    (htail : ∀ i, fs.blksize ≤ i → buf i = w.junk i) :
    inodeReadBlock fs w inode nr buf = (b, dirBuf fs w b) :=
  inodeReadBlock_of_read hs hb hlookup (hh.rwBlockRead_eq hs htail) htail

theorem inodeReadBlock_unmapped (hlookup : realBlockRead fs w inode nr = some 0) :
    inodeReadBlock fs w inode nr buf = (0, buf) := by
  unfold inodeReadBlock
  rw [hlookup, Option.getD_some]
  simp only
  rw [if_neg (by decide), if_pos trivial]

theorem dirBuf_tail {i : ℕ} (hi : fs.blksize ≤ i) : dirBuf fs w b i = w.junk i :=
  if_neg (by omega)

/-- A logical block that can be looked up has a number of 32 bits. -/
theorem lt_of_realBlockRead (h : realBlockRead fs w inode nr = some b) : nr < 2 ^ 32 := by
  obtain ⟨⟨slot, is⟩, hpath, -⟩ := Option.bind_eq_some_iff.mp h
  unfold realBlockPath at hpath
  simp only at hpath
  have hmod : ∀ a, a % 2 ^ 32 < 2 ^ 32 := fun a => Nat.mod_lt a (by norm_num)
  have h₁ := hmod (12 + fs.entries)
  have h₂ := hmod ((12 + fs.entries) % 2 ^ 32 + fs.entries * fs.entries % 2 ^ 32)
  have h₃ := hmod (((12 + fs.entries) % 2 ^ 32 + fs.entries * fs.entries % 2 ^ 32) % 2 ^ 32
    + fs.entries * fs.entries % 2 ^ 32 * fs.entries % 2 ^ 32)
  split at hpath
  · omega
  split at hpath
  · omega
  split at hpath
  · omega
  split at hpath
  · omega
  · simp at hpath

/-- The records of a tiled block begin at its start. -/
theorem Tiled.records_eq_cons (ht : Tiled fs buf) (hs : fs.Sized) :
    ∃ ps, records fs buf = 0 :: ps := by
  have hpos := hs.pos
  have htiling := ht.tiling
  cases hr : records fs buf with
  | nil =>
      rw [hr] at htiling
      simp only [Tiling] at htiling
      omega
  | cons p ps =>
      rw [hr] at htiling
      exact ⟨ps, by rw [htiling.1]⟩

/-- The copy of a record that `ext2_dir_find_entry` returns. -/
def entryCopy (fs : Fs) (w : World) (x : ℕ × ℕ) : Mem :=
  w.junk.memcpy 0 (dirBuf fs w x.1) x.2 (realLen (dNameLen (dirBuf fs w x.1) x.2))

theorem dInode_entryCopy (x : ℕ × ℕ) :
    dInode (entryCopy fs w x) 0 = dInode (dirBuf fs w x.1) x.2 := by
  apply Mem.readLE_shift
  intro i hi
  have hlen : 8 ≤ realLen (dNameLen (dirBuf fs w x.1) x.2) := by
    unfold realLen
    omega
  rw [entryCopy, Mem.memcpy, if_pos (by omega)]
  congr 1
  omega

/-- The search through the blocks that are left. -/
theorem findFrom_eq (hh : Healthy fs w) (hs : fs.Sized)
    (htiled : ∀ b ∈ bs, (b ≠ 0 ∧ fs.Addressable b) ∧ Tiled fs (dirBuf fs w b))
    (hlookup : ∀ i b, bs[i]? = some b → realBlockRead fs w inode (nr + i) = some b)
    (hstop : realBlockRead fs w inode (nr + bs.length) = some 0)
    (htail : ∀ i, fs.blksize ≤ i → buf i = w.junk i) {fuel : ℕ} (hfuel : bs.length < fuel) :
    findFrom fs w inode path fuel nr buf
      = some (((dirRecords fs w bs).find? fun x => nameIs (dirBuf fs w x.1) path x.2).map
          (entryCopy fs w)) := by
  induction bs generalizing nr buf fuel with
  | nil =>
      obtain ⟨fuel, rfl⟩ : ∃ f, fuel = f + 1 := ⟨fuel - 1, by simp at hfuel; omega⟩
      rw [findFrom, inodeReadBlock_unmapped (by simpa using hstop)]
      simp [dirRecords]
  | cons b bs ih =>
      obtain ⟨fuel, rfl⟩ : ∃ f, fuel = f + 1 := ⟨fuel - 1, by simp at hfuel; omega⟩
      obtain ⟨hb, ht⟩ := htiled b List.mem_cons_self
      have htail₀ : ∀ i, fs.blksize ≤ i → buf.memset 0 0 fs.blksize i = w.junk i := by
        intro i hi
        rw [Mem.memset, if_neg (by omega), htail i hi]
      have hread := inodeReadBlock_mapped hh hs hb (hlookup 0 b rfl) htail₀
      obtain ⟨ps, hps⟩ := ht.records_eq_cons hs
      have hscan : scan (dReclen (dirBuf fs w b)) (nameIs (dirBuf fs w b) path) fs.blksize
          fs.blksize 0 = some ((records fs (dirBuf fs w b)).find? (nameIs (dirBuf fs w b) path)) := by
        rw [hps]
        exact (hps ▸ ht.tiling).scan_eq _ (by omega)
      rw [Nat.add_zero] at hread
      rw [findFrom, hread]
      simp only [Option.bind_eq_bind, hscan, Option.bind_some]
      rw [if_neg (by simp [hb.1, (hb.2.ne_minusOne hs).2])]
      have hrec : dirRecords fs w (b :: bs)
          = (records fs (dirBuf fs w b)).map (fun p => (b, p)) ++ dirRecords fs w bs := by
        simp [dirRecords]
      rw [hrec, List.find?_append, List.find?_map]
      simp only [Function.comp_def]
      cases hfind : (records fs (dirBuf fs w b)).find? (nameIs (dirBuf fs w b) path) with
      | some de => simp [entryCopy]
      | none =>
          simp only [Option.map_none, Option.none_or]
          apply ih (fun c hc => htiled c (List.mem_cons_of_mem b hc))
          · intro i c hc
            rw [Nat.add_assoc, Nat.add_comm 1 i]
            exact hlookup (i + 1) c (by simpa using hc)
          · rw [Nat.add_assoc, Nat.add_comm 1]
            simpa using hstop
          · exact fun i hi => dirBuf_tail hi
          · simp only [List.length_cons] at hfuel
            omega

/-- **`ext2_dir_find_entry` returns the first record with the name.** -/
theorem findEntry_eq (hh : Healthy fs w) (hs : fs.Sized) (hsize : 128 ≤ fs.inodeSize)
    (hplace : InodePlace fs R w v b boff) (hd : Directory fs w v bs) (path : CString) :
    findEntry fs w v path
      = some (((dirRecords fs w bs).find? fun x => nameIs (dirBuf fs w x.1) path x.2).map
          (entryCopy fs w)) := by
  have hmap := sameMap_inodeBuf (w := w) (v := v) hsize
  unfold findEntry
  rw [hh.rwInodeRead_eq hs hplace]
  simp only [Option.bind_eq_bind, Option.bind_some, Option.getD_some]
  apply findFrom_eq hh hs (fun b hb => ⟨hd.blocks b hb, hd.tiled b hb⟩)
  · intro i b hb
    rw [Nat.zero_add, hmap.realBlockRead]
    exact hd.lookup i b hb
  · rw [Nat.zero_add, hmap.realBlockRead]
    exact hd.stop
  · exact fun _ _ => rfl
  · exact lt_of_realBlockRead hd.stop

theorem resolve_eq (hh : Healthy fs w) (hs : fs.Sized) (hsize : 128 ≤ fs.inodeSize)
    (hplace : InodePlace fs R w v b boff) (hd : Directory fs w v bs) (path : CString) :
    resolve fs w v path
      = some (((dirRecords fs w bs).find? fun x => nameIs (dirBuf fs w x.1) path x.2).map
          fun x => dInode (dirBuf fs w x.1) x.2) := by
  rw [resolve, findEntry_eq hh hs hsize hplace hd, Option.map_some, Option.map_map]
  congr 2
  funext x
  exact dInode_entryCopy x

end

end Shaunos.Ext2
