import Shaunos.Ext2.AllocErrors
import Shaunos.Ext2.Delete

/-!
# When `ext2_dir_empty` is right

Reference: `Kernel/ext2.c` (`ext2_dir_empty`, `ext2_free_inode`).

The loop sets its record pointer back in every turn and never counts up the block, so it looks at the
first record only, and at that not at all if the counter, which is never assigned, starts high enough.
What it finds there is right about the directory when nothing but `.` and `..` is in it, or when the
first record or the link count shows that something else is.

* `dirEmpty_right_iff` — when the answer is the right one;
* `freeInode_of_full` — a directory that is taken for one with entries is not freed.
-/

namespace Shaunos.Ext2

/-! ## Definitions -/

/-- The entries in use are `.`, which names the directory itself, and `..`. -/
def OnlyDots (fs : Fs) (w : World) (v : ℕ) (bs : List ℕ) : Prop :=
  ∀ x ∈ dirRecords fs w bs, dInode (dirBuf fs w x.1) x.2 ≠ 0 →
    (dName (dirBuf fs w x.1) x.2 = [0x2E#8] ∧ dInode (dirBuf fs w x.1) x.2 = v) ∨
      dName (dirBuf fs w x.1) x.2 = [0x2E#8, 0x2E#8]

/-- The scan ends, and with the right answer. -/
def DirEmptyRight (fs : Fs) (w : World) (v : ℕ) (bs : List ℕ) : Prop :=
  dirEmpty fs w (inodeBuf fs w v) v ≠ none ∧
    (dirEmpty fs w (inodeBuf fs w v) v = some true ↔ OnlyDots fs w v bs)

/-- The device reads the first block of the directory, if there is one. -/
def HeadReadable (fs : Fs) (w : World) (bs : List ℕ) : Prop :=
  ∀ b ∈ bs.head?, CanRead w (fs.sector b) (fs.blksize / 512)

/-- With nothing but `.` and `..` in it, the link count is at most 2 and the first block can be read.
With other entries, the link count is above 2, or the first block cannot be read, or the counter
starts below the link count and the first record does not pass the checks. -/
def DirEmptyFits (fs : Fs) (w : World) (v : ℕ) (bs : List ℕ) : Prop :=
  (OnlyDots fs w v bs ∧ iLinkCnt (diskInode fs w v) ≤ 2 ∧ HeadReadable fs w bs) ∨
    (¬ OnlyDots fs w v bs ∧
      (2 < iLinkCnt (diskInode fs w v) ∨ ¬ HeadReadable fs w bs ∨
        (0 < emptyTurns w (diskInode fs w v) ∧
          ∃ b ∈ bs.head?, dotRecord (dirBuf fs w b) v = false)))

section

variable {fs : Fs} {w : World} {v b : ℕ} {bs : List ℕ} {m inode buf : Mem}

/-! ## The first record -/

/-- `.` and `..` pass the checks. -/
theorem dotRecord_of_name (hdot : (dName m 0 = [0x2E#8] ∧ dInode m 0 = v) ∨
    dName m 0 = [0x2E#8, 0x2E#8]) : dotRecord m v = true := by
  have hlen : ∀ s, dName m 0 = s → dNameLen m 0 = s.length := by
    rintro s rfl
    simp [dName]
  have hget : ∀ i c, (dName m 0)[i]? = some c → m (8 + i) = c := by
    intro i c h
    obtain ⟨hi, h⟩ := List.getElem?_eq_some_iff.mp h
    simpa [dName] using h
  unfold dotRecord
  by_cases hzero : dInode m 0 = 0
  · rw [if_neg (by simpa using hzero)]
  rw [if_pos hzero]
  rcases hdot with ⟨hname, hself⟩ | hname
  · have h₀ := hget 0 0x2E#8 (by rw [hname]; rfl)
    have hl := hlen _ hname
    rw [if_neg (by simpa using h₀), if_neg (by simp [hl]), if_pos (by simp [hl])]
    simpa using hself
  · have h₀ := hget 0 0x2E#8 (by rw [hname]; rfl)
    have h₁ := hget 1 0x2E#8 (by rw [hname]; rfl)
    have hl := hlen _ hname
    rw [if_neg (by simpa using h₀), if_neg (by simp [hl]), if_neg (by simp [hl])]
    simpa using h₁

theorem dotRecord_of_unused (hzero : dInode m 0 = 0) : dotRecord m v = true := by
  unfold dotRecord
  rw [if_neg (by simpa using hzero)]

/-- What is read as the first block of a directory. -/
theorem inodeReadBlock_head (hs : fs.Sized) (hsize : 128 ≤ fs.inodeSize)
    (hd : Directory fs w v (b :: bs)) :
    inodeReadBlock fs w (inodeBuf fs w v) 0 w.junk =
      (match rwBlockRead fs w b w.junk with
      | none => (minusOne, w.junk)
      | some _ => (b, dirBuf fs w b)) := by
  obtain ⟨hb0, haddr⟩ := hd.blocks b List.mem_cons_self
  have hlookup : realBlockRead fs w (inodeBuf fs w v) 0 = some b := by
    rw [(sameMap_inodeBuf hsize).realBlockRead]
    exact hd.lookup 0 b rfl
  unfold inodeReadBlock
  rw [hlookup, Option.getD_some]
  simp only
  rw [if_neg (haddr.ne_minusOne hs).2, if_neg hb0]
  cases hread : rwBlockRead fs w b w.junk with
  | none => rfl
  | some m =>
      simp only
      rw [eq_dirBuf_of_read hs hread fun _ _ => rfl]

/-- The first record of a tiled block is one of the directory, and it stays inside the block. -/
theorem head_record (hs : fs.Sized) (hd : Directory fs w v (b :: bs)) :
    (b, 0) ∈ dirRecords fs w (b :: bs) ∧ dReclen (dirBuf fs w b) 0 ≤ fs.blksize := by
  have ht := hd.tiled b List.mem_cons_self
  obtain ⟨ps, hps⟩ := ht.records_eq_cons hs
  have hmem : 0 ∈ records fs (dirBuf fs w b) := by
    rw [hps]
    exact List.mem_cons_self
  refine ⟨List.mem_flatMap.mpr ⟨b, List.mem_cons_self, List.mem_map.mpr ⟨0, hmem, rfl⟩⟩, ?_⟩
  have := ht.tiling.bounds hmem
  omega

theorem emptyTurns_inodeBuf (hsize : 128 ≤ fs.inodeSize) :
    emptyTurns w (inodeBuf fs w v) = emptyTurns w (diskInode fs w v) := by
  unfold emptyTurns
  rw [iLinkCnt_inodeBuf hsize]

/-! ## When it is right -/

/-- The answers, for a directory that is well formed. -/
theorem dirEmpty_directory (hs : fs.Sized) (hsize : 128 ≤ fs.inodeSize) (hd : Directory fs w v bs) :
    (dirEmpty fs w (inodeBuf fs w v) v = some true ↔
      iLinkCnt (diskInode fs w v) ≤ 2 ∧ HeadReadable fs w bs ∧
        (0 < emptyTurns w (diskInode fs w v) → ∀ b ∈ bs.head?, dotRecord (dirBuf fs w b) v = true)) ∧
    (dirEmpty fs w (inodeBuf fs w v) v = some false ↔
      2 < iLinkCnt (diskInode fs w v) ∨ ¬ HeadReadable fs w bs ∨
        (0 < emptyTurns w (diskInode fs w v) ∧
          ∃ b ∈ bs.head?, dotRecord (dirBuf fs w b) v = false)) := by
  obtain ⟨htrue, hfalse⟩ := dirEmpty_iff fs w (inodeBuf fs w v) v
  rw [htrue, hfalse]
  unfold TakenForEmpty TakenForFull HeadReadable
  rw [iLinkCnt_inodeBuf hsize, emptyTurns_inodeBuf hsize]
  cases bs with
  | nil =>
      have hread : inodeReadBlock fs w (inodeBuf fs w v) 0 w.junk = (0, w.junk) := by
        apply inodeReadBlock_unmapped
        rw [(sameMap_inodeBuf hsize).realBlockRead]
        exact hd.stop
      have hne : (0 : ℕ) ≠ minusOne := by decide
      rw [hread]
      simp [hne]
  | cons b bs =>
      obtain ⟨hb0, haddr⟩ := hd.blocks b List.mem_cons_self
      have hb1 := (haddr.ne_minusOne hs).2
      obtain ⟨-, hlen⟩ := head_record hs hd
      have hcan : CanRead w (fs.sector b) (fs.blksize / 512) ↔
          (rwBlockRead fs w b w.junk).isSome := blockRead_isSome_iff.symm
      rw [inodeReadBlock_head hs hsize hd]
      simp only [List.head?_cons, Option.mem_def, Option.some.injEq, forall_eq', exists_eq_left', hcan]
      cases hread : rwBlockRead fs w b w.junk with
      | none =>
          have hne : minusOne ≠ 0 := by decide
          simp [hne]
      | some m =>
          simp only [Option.isSome_some, not_true_eq_false, false_or, true_and, hb0, hb1, hlen,
            and_true, ne_eq, not_false_eq_true]
          rw [Nat.pos_iff_ne_zero]
          exact and_congr_right fun _ => or_iff_not_imp_left

/-- **When the answer of `ext2_dir_empty` is right.** -/
theorem dirEmpty_right_iff (hs : fs.Sized) (hsize : 128 ≤ fs.inodeSize) (hd : Directory fs w v bs) :
    DirEmptyRight fs w v bs ↔ DirEmptyFits fs w v bs := by
  obtain ⟨htrue, hfalse⟩ := dirEmpty_directory hs hsize hd
  -- the first record passes the checks when there is nothing but dots
  have hdots : OnlyDots fs w v bs → ∀ b ∈ bs.head?, dotRecord (dirBuf fs w b) v = true := by
    intro honly b hb
    obtain ⟨bs, rfl⟩ : ∃ bs', bs = b :: bs' := by
      cases bs with
      | nil => simp at hb
      | cons c bs => exact ⟨bs, by rw [Option.some.inj hb]⟩
    by_cases hzero : dInode (dirBuf fs w b) 0 = 0
    · exact dotRecord_of_unused hzero
    · exact dotRecord_of_name (honly (b, 0) (head_record hs hd).1 hzero)
  unfold DirEmptyRight DirEmptyFits
  constructor
  · rintro ⟨hend, hright⟩
    by_cases honly : OnlyDots fs w v bs
    · obtain ⟨hlink, hread, -⟩ := htrue.mp (hright.mpr honly)
      exact Or.inl ⟨honly, hlink, hread⟩
    · refine Or.inr ⟨honly, hfalse.mp ?_⟩
      cases hres : dirEmpty fs w (inodeBuf fs w v) v with
      | none => exact absurd hres hend
      | some r =>
          cases r with
          | false => rfl
          | true => exact absurd (hright.mp hres) honly
  · rintro (⟨honly, hlink, hread⟩ | ⟨honly, hfull⟩)
    · have hres := htrue.mpr ⟨hlink, hread, fun _ => hdots honly⟩
      rw [hres]
      exact ⟨by simp, by simpa using honly⟩
    · have hres := hfalse.mpr hfull
      rw [hres]
      exact ⟨by simp, by simpa using honly⟩

/-- A directory that is taken for one with entries is not freed. -/
theorem freeInode_of_full (hread : rwInodeRead fs w v w.junk = some (some (inodeBuf fs w v)))
    (hmode : modeDir (inodeBuf fs w v) = true)
    (hfull : dirEmpty fs w (inodeBuf fs w v) v = some false) :
    freeInode fs w v = some (false, w) := by
  unfold freeInode
  simp only [Option.bind_eq_bind, hread, Option.bind_some, Option.getD_some, hmode, if_true, hfull]
  rfl

end

/-! ## A directory with an entry -/

/-- A volume with a directory, inode 11, whose only block 20 holds `.`, `..` and, if `ino` is not 0,
an entry `a`. -/
def oneDir (ino : ℕ) : World :=
  { oneFile 2048 with
    disk :=
      let inode := ((oneFile 2048).disk.set16 9472 0x41ED).set16 9498 2
      let dot := ((inode.set32 40960 11).set16 40964 12).set32 40966 0x2E0201
      let dotdot := ((dot.set32 40972 2).set16 40976 12).set32 40978 0x2E2E0202
      ((dotdot.set32 40984 ino).set16 40988 2024).set32 40990 0x610101 }

/-- With the entry `a` in use or not, the directory is well formed. -/
theorem oneDir_directory {ino : ℕ} (hino : ino = 0 ∨ ino = 5) :
    Directory (almostFullFs 1 0) (oneDir ino) 11 [20] ∧
      records (almostFullFs 1 0) (dirBuf (almostFullFs 1 0) (oneDir ino) 20) = [0, 12, 24] := by
  have hrecords :
      records (almostFullFs 1 0) (dirBuf (almostFullFs 1 0) (oneDir ino) 20) = [0, 12, 24] := by
    rcases hino with rfl | rfl <;> decide +kernel
  have hlens : dReclen (dirBuf (almostFullFs 1 0) (oneDir ino) 20) 0 = 12 ∧
      dReclen (dirBuf (almostFullFs 1 0) (oneDir ino) 20) 12 = 12 ∧
      dReclen (dirBuf (almostFullFs 1 0) (oneDir ino) 20) 24 = 2024 := by
    rcases hino with rfl | rfl <;> decide +kernel
  have hnames : dNameLen (dirBuf (almostFullFs 1 0) (oneDir ino) 20) 0 = 1 ∧
      dNameLen (dirBuf (almostFullFs 1 0) (oneDir ino) 20) 12 = 2 ∧
      dNameLen (dirBuf (almostFullFs 1 0) (oneDir ino) 20) 24 = 1 := by
    rcases hino with rfl | rfl <;> decide +kernel
  have hlookup : realBlockRead (almostFullFs 1 0) (oneDir ino)
        (diskInode (almostFullFs 1 0) (oneDir ino) 11) 0 = some 20 ∧
      realBlockRead (almostFullFs 1 0) (oneDir ino)
        (diskInode (almostFullFs 1 0) (oneDir ino) 11) 1 = some 0 := by
    rcases hino with rfl | rfl <;> decide +kernel
  refine ⟨⟨fun nr b hb => ?_, hlookup.2, fun b hb => ?_, fun b hb => ?_⟩, hrecords⟩
  · obtain ⟨hnr, rfl⟩ := List.getElem?_eq_some_iff.mp hb
    obtain rfl : nr = 0 := by simpa using hnr
    exact hlookup.1
  · obtain rfl := List.mem_singleton.mp hb
    unfold Fs.Addressable almostFullFs
    norm_num
  · obtain rfl := List.mem_singleton.mp hb
    refine ⟨?_, ?_, ?_⟩ <;> rw [hrecords]
    · simp [Tiling, hlens]
      simp [almostFullFs]
    · simp [hlens, hnames, realLen]
    · simp [hlens]

/-- The entry `a` is not in use, and the directory is found empty. -/
theorem dirEmpty_right_iff_unused : DirEmptyRight (almostFullFs 1 0) (oneDir 0) 11 [20] := by
  obtain ⟨hd, hrecords⟩ := oneDir_directory (Or.inl rfl)
  refine (dirEmpty_right_iff (almostFullFs_sized le_rfl) (by simp [almostFullFs]) hd).mpr
    (Or.inl ⟨fun x hx hused => ?_, ?_, fun b _ => ⟨by norm_num [almostFullFs], fun _ _ => rfl⟩⟩)
  · simp only [dirRecords, List.flatMap_cons, List.flatMap_nil, hrecords, List.map_cons, List.map_nil,
      List.append_nil, List.mem_cons, List.not_mem_nil, or_false] at hx
    rcases hx with rfl | rfl | rfl
    · left
      decide +kernel
    · right
      decide +kernel
    · exact absurd (by decide +kernel) hused
  · decide +kernel

/-- The entry `a` is in use, and the directory is found empty. -/
theorem dirEmpty_can_miss_entry :
    ¬ ∀ (fs : Fs) (w : World) (v : ℕ) (bs : List ℕ), fs.Sized → 128 ≤ fs.inodeSize →
      Directory fs w v bs → DirEmptyRight fs w v bs := by
  intro hall
  obtain ⟨hd, hrecords⟩ := oneDir_directory (Or.inr rfl)
  obtain ⟨-, hright⟩ := hall _ _ _ _ (almostFullFs_sized le_rfl) (by simp [almostFullFs]) hd
  have hrun : dirEmpty (almostFullFs 1 0) (oneDir 5) (inodeBuf (almostFullFs 1 0) (oneDir 5) 11) 11
      = some true := by
    decide +kernel
  have hmem : (20, 24) ∈ dirRecords (almostFullFs 1 0) (oneDir 5) [20] := by
    simp [dirRecords, hrecords]
  have hdots := hright.mp hrun (20, 24) hmem (by decide +kernel)
  exact absurd hdots (by decide +kernel)

end Shaunos.Ext2
