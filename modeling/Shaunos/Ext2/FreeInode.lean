import Shaunos.Ext2.AllocErrors
import Shaunos.Ext2.Delete

/-!
# What `ext2_free_inode` gives back

Reference: `Kernel/ext2.c` (`ext2_free_inode`, `ext2_free_block`).

The blocks of a file are freed one logical block after the other, until the first that is not mapped.
Indirect blocks are nobody's logical block, and errors of `ext2_free_block` are only logged. So the
blocks of a file are given back when there are no indirect ones and no hole has a block behind it.

* `freeAll_spec` — the bits and the counters after a list of blocks has been freed;
* `freeInodeBlocks_eq` — the loop frees the blocks before the first hole;
* `freeInode_frees_iff` — when all blocks are given back.
-/

namespace Shaunos.Ext2

/-! ## Definitions -/

/-- Logical block `n` is mapped. -/
def Maps (fs : Fs) (w : World) (inode : Mem) (n : ℕ) : Prop :=
  ∃ b ≠ 0, realBlockRead fs w inode n = some b

/-- The group and the bit of an inode. -/
def inodeHome (fs : Fs) (v : ℕ) : ℕ × ℕ := ((v - 1) / fs.inodePerGrp, (v - 1) % fs.inodePerGrp)

/-- The bits of all blocks of a file and of its inode are cleared, and no others; the counters say
that each was freed once. -/
structure FreedAll (fs : Fs) (w w' : World) (v : ℕ) : Prop where
  block : ∀ g < fs.groupsCount, ∀ j < 8 * fs.blksize, bit fs w' .block g j = true ↔
    bit fs w .block g j = true ∧ ∀ b ∈ fileBlocks fs w (diskInode fs w v), home fs b ≠ (g, j)
  inode : ∀ g < fs.groupsCount, ∀ j < 8 * fs.blksize, bit fs w' .inode g j = true ↔
    bit fs w .inode g j = true ∧ inodeHome fs v ≠ (g, j)
  blocks : w'.sFreeBlocks ≡ w.sFreeBlocks + (fileBlocks fs w (diskInode fs w v)).ncard [MOD 2 ^ 32]
  inodes : w'.sFreeInodes ≡ w.sFreeInodes + 1 [MOD 2 ^ 32]

/-- The device reads and writes the bitmap of the group of block `b`. -/
def BitServed (fs : Fs) (w : World) (b : ℕ) : Prop :=
  CanRead w (bitmapSector fs w .block (home fs b).1) (fs.blksize / 512) ∧
    CanWrite w (bitmapSector fs w .block (home fs b).1) (fs.blksize / 512)

/-- The file has no blocks; or blocks are numbered from 0, there are no indirect blocks, no hole has
a block behind it, and the bitmaps of all blocks can be read and written. -/
def FreeFits (fs : Fs) (w : World) (inode : Mem) : Prop :=
  fileBlocks fs w inode = ∅ ∨
    (fs.firstDataBlock = 0 ∧ indirect fs w inode = ∅ ∧
      (∀ n m, n ≤ m → Maps fs w inode m → Maps fs w inode n) ∧
      ∀ b ∈ dataBlocks fs w inode, BitServed fs w b)

/-- A regular file on a volume: its inode has been read, its blocks are not used twice, and they are
blocks of the volume that are marked as used. -/
structure OnVolume (fs : Fs) (w : World) (v : ℕ) : Prop where
  placed : Placed fs w
  inodeSize : 128 ≤ fs.inodeSize
  read : rwInodeRead fs w v w.junk = some (some (inodeBuf fs w v))
  regular : modeDir (diskInode fs w v) = false
  blkPerGroup : 0 < fs.blkPerGroup ∧ fs.blkPerGroup ≤ 8 * fs.blksize
  filed : Filed fs {c | Metadata fs w c} w (diskInode fs w v)
  used : ∀ b ∈ fileBlocks fs w (diskInode fs w v), fs.firstDataBlock ≤ b ∧
    (home fs b).1 < fs.groupsCount ∧ homeBit fs w b = true
  group : (inodeHome fs v).1 < fs.groupsCount

/-- The bit that `ext2_free_block` clears. -/
def freePos (fs : Fs) (b : ℕ) : ℕ × ℕ :=
  (freeGroup fs b, (b + (2 ^ 32 - freeGroup fs b * fs.blkPerGroup % 2 ^ 32)) % 2 ^ 32)

/-- Free blocks one after the other, whatever comes of it. -/
def freeAll (fs : Fs) (w : World) (l : List ℕ) : World :=
  l.foldl (fun w b => (freeBlock fs w b).2) w

/-- The blocks that the loop frees from logical block `nr` on. -/
def freed (fs : Fs) (w : World) (inode : Mem) : (fuel nr : ℕ) → List ℕ
  | 0, _ => []
  | fuel + 1, nr =>
      match realBlockRead fs w inode nr with
      | none => []
      | some b => if b = 0 ∨ b = minusOne then [] else b :: freed fs w inode fuel (nr + 1)

/-! ## One block -/

section

variable {fs : Fs} {w w' : World} {k : Kind} {g j b v n nr fuel : ℕ} {l : List ℕ} {inode : Mem}
  {S : Set ℕ}

/-- `ext2_free_block` misses the bit of a block by the number of the first data block. -/
theorem freePos_eq (hfirst : fs.firstDataBlock ≤ b) (hb : b < 2 ^ 32) :
    freePos fs b = ((home fs b).1, (home fs b).2 + fs.firstDataBlock) := by
  have hgroup : freeGroup fs b = (b - fs.firstDataBlock) / fs.blkPerGroup := by
    unfold freeGroup
    rw [show b + (2 ^ 32 - fs.firstDataBlock) = b - fs.firstDataBlock + 2 ^ 32 by omega,
      Nat.add_mod_right, Nat.mod_eq_of_lt (by omega)]
  have hle := Nat.div_mul_le_self (b - fs.firstDataBlock) fs.blkPerGroup
  have hsplit := Nat.div_add_mod (b - fs.firstDataBlock) fs.blkPerGroup
  rw [Nat.mul_comm] at hsplit
  unfold freePos home
  rw [hgroup]
  congr 1
  omega

theorem freeGroup_eq (hfirst : fs.firstDataBlock ≤ b) (hb : b < 2 ^ 32) :
    freeGroup fs b = (home fs b).1 := congrArg Prod.fst (freePos_eq hfirst hb)

theorem Frame.canRead_iff (h : Frame fs S w w') (start nums : ℕ) :
    CanRead w' start nums ↔ CanRead w start nums := by
  unfold CanRead
  rw [h.badRead]

theorem Frame.canWrite_iff (h : Frame fs S w w') (start nums : ℕ) :
    CanWrite w' start nums ↔ CanWrite w start nums := by
  unfold CanWrite
  rw [h.badWrite]

theorem Frame.bitServed_iff (h : Frame fs S w w') (b : ℕ) : BitServed fs w' b ↔ BitServed fs w b := by
  unfold BitServed bitmapSector
  rw [h.bitmapBlock, h.canRead_iff, h.canWrite_iff]

/-- A counter that goes up changes. -/
theorem groupDesc_countUp_ne (w : World) (k : Kind) (g : ℕ) :
    (w.countUp k g).groupDesc ≠ w.groupDesc := by
  intro heq
  have hlt : freeNums k w.groupDesc g < 2 ^ 16 := Mem.get16_lt _ _
  have hnums := freeNums_setNums w k g (freeNums k w.groupDesc g + 1) (· + 1) k g
  rw [if_pos rfl] at hnums
  change freeNums k (w.countUp k g).groupDesc g = _ at hnums
  rw [heq] at hnums
  omega

theorem giveBit_of_not_served
    (hno : ¬ (CanRead w (bitmapSector fs w k g) (fs.blksize / 512) ∧
      CanWrite w (bitmapSector fs w k g) (fs.blksize / 512))) :
    giveBit fs k w g j = (false, w) := by
  unfold giveBit
  simp only
  cases hread : rwBlockRead fs w (bitmapBlock k w.groupDesc g) w.junk with
  | none => rfl
  | some buf =>
      simp only
      cases hwrite : rwBlockWrite fs w (bitmapBlock k w.groupDesc g) (buf.clearBit j) with
      | none => rfl
      | some w₁ =>
          refine absurd ⟨?_, ?_⟩ hno
          · exact blockRead_isSome_iff.mp (Option.isSome_iff_exists.mpr ⟨buf, hread⟩)
          · exact blockWrite_isSome_iff.mp (Option.isSome_iff_exists.mpr ⟨w₁, hwrite⟩)

theorem giveBit_of_served (hp : Placed fs w) (hg : g < fs.groupsCount)
    (hread : CanRead w (bitmapSector fs w k g) (fs.blksize / 512))
    (hwrite : CanWrite w (bitmapSector fs w k g) (fs.blksize / 512)) :
    (∀ k', (giveBit fs k w g j).2.total k' = (w.countUp k g).total k') ∧
      ∀ k', ∀ g' < fs.groupsCount, ∀ i < 8 * fs.blksize, bit fs (giveBit fs k w g j).2 k' g' i
        = (bit fs w k' g' i && !decide ((k', g', i) = (k, g, j))) := by
  obtain ⟨-, ⟨-, hsame⟩ | ⟨-, htotal, -, hbits⟩⟩ := giveBit_spec (k := k) (j := j) hp hg Prod.mk.eta.symm
  · -- the counters have gone up, so something has changed
    obtain ⟨buf, hbuf⟩ := Option.isSome_iff_exists.mp
      ((@blockRead_isSome_iff w _ _ w.junk).mpr hread)
    obtain ⟨w₁, hw₁⟩ := Option.isSome_iff_exists.mp
      ((@blockWrite_isSome_iff w _ _ (buf.clearBit j)).mpr hwrite)
    have hgd : (giveBit fs k w g j).2.groupDesc = (w₁.countUp k g).groupDesc := by
      unfold giveBit
      simp only
      rw [show rwBlockRead fs w (bitmapBlock k w.groupDesc g) w.junk = some buf from hbuf]
      simp only
      rw [show rwBlockWrite fs w (bitmapBlock k w.groupDesc g) (buf.clearBit j) = some w₁ from hw₁]
      simp only
      cases hdesc : writeGroupDesc fs (w₁.countUp k g) with
      | none => rfl
      | some w₂ =>
          simp only
          rw [blockWrite_eq_some hdesc]
    have hgd₁ : w₁.groupDesc = w.groupDesc := by rw [blockWrite_eq_some hw₁]
    rw [hsame, ← hgd₁] at hgd
    exact absurd hgd.symm (groupDesc_countUp_ne w₁ k g)
  · exact ⟨htotal, hbits⟩

/-! ## A list of blocks -/

theorem freeAll_cons (b : ℕ) (l : List ℕ) :
    freeAll fs w (b :: l) = freeAll fs (freeBlock fs w b).2 l := rfl

/-- **Freeing a list of blocks.** -/
theorem freeAll_spec (hp : Placed fs w)
    (hl : ∀ b ∈ l, fs.firstDataBlock ≤ b ∧ b < 2 ^ 32 ∧ (home fs b).1 < fs.groupsCount) :
    Frame fs {c | Metadata fs w c} w (freeAll fs w l) ∧
      (∀ g < fs.groupsCount, ∀ j < 8 * fs.blksize, bit fs (freeAll fs w l) .block g j = true ↔
        bit fs w .block g j = true ∧ ∀ b ∈ l, BitServed fs w b → freePos fs b ≠ (g, j)) ∧
      (∀ g < fs.groupsCount, ∀ j < 8 * fs.blksize,
        bit fs (freeAll fs w l) .inode g j = bit fs w .inode g j) ∧
      (freeAll fs w l).sFreeInodes = w.sFreeInodes ∧
      ((∀ b ∈ l, BitServed fs w b) →
        (freeAll fs w l).sFreeBlocks ≡ w.sFreeBlocks + l.length [MOD 2 ^ 32]) := by
  induction l generalizing w with
  | nil => exact ⟨Frame.refl _ _ _, fun g _ j _ => by simp [freeAll], fun _ _ _ _ => rfl, rfl,
      fun _ => Nat.ModEq.refl _⟩
  | cons b l ih =>
      obtain ⟨hfirst, hb, hg⟩ := hl b List.mem_cons_self
      have hgroup := freeGroup_eq hfirst hb
      have hframe : Frame fs {c | Metadata fs w c} w (freeBlock fs w b).2 :=
        frame_giveBit hp (hgroup ▸ hg) _
      obtain ⟨hframe', hbits, hinode, hinodes, hblocks⟩ :=
        ih (hframe.placed hp) fun c hc => hl c (List.mem_cons_of_mem b hc)
      rw [hframe.metadata_eq] at hframe'
      rw [freeAll_cons]
      by_cases hserved : BitServed fs w b
      · obtain ⟨hread, hwrite⟩ := hserved
        rw [← hgroup] at hread hwrite hg
        obtain ⟨htotal, hone⟩ := giveBit_of_served (k := .block)
          (j := (freePos fs b).2) hp hg hread hwrite
        have hblock : giveBit fs .block w (freeGroup fs b) (freePos fs b).2 = freeBlock fs w b := rfl
        rw [hblock] at htotal hone
        refine ⟨hframe.trans hframe', fun g hg j hj => ?_, fun g hg j hj => ?_, ?_, fun hall => ?_⟩
        · rw [hbits g hg j hj, hone .block g hg j hj]
          simp only [hframe.bitServed_iff, Bool.and_eq_true, Bool.not_eq_true', decide_eq_false_iff_not,
            List.forall_mem_cons, and_assoc]
          refine and_congr_right fun _ => and_congr_left fun _ => ?_
          rw [hgroup] at hread hwrite
          simp only [BitServed, hread, hwrite, and_self, true_imp_iff, Prod.mk.injEq, true_and, freePos,
            ne_eq]
          rw [eq_comm, @eq_comm _ j]
        · rw [hinode g hg j hj, hone .inode g hg j hj]
          simp
        · rw [hinodes]
          exact htotal .inode
        · have hcount : (freeBlock fs w b).2.sFreeBlocks = (w.sFreeBlocks + 1) % 2 ^ 32 :=
            htotal .block
          refine (hblocks fun c hc => (hframe.bitServed_iff c).mpr
            (hall c (List.mem_cons_of_mem b hc))).trans ?_
          rw [hcount, List.length_cons, Nat.add_comm l.length 1, ← Nat.add_assoc]
          exact (Nat.mod_modEq _ _).add_right _
      · have hsame : (freeBlock fs w b).2 = w := by
          have hno := hserved
          unfold BitServed at hno
          rw [← hgroup] at hno
          unfold freeBlock
          simp only
          rw [giveBit_of_not_served hno]
        rw [hsame] at hframe' hbits hinode hinodes ⊢
        refine ⟨hframe', fun g hg j hj => ?_, hinode, hinodes, fun hall => ?_⟩
        · rw [hbits g hg j hj]
          simp [hserved]
        · exact absurd (hall b List.mem_cons_self) hserved

/-! ## The loop -/

theorem freed_congr {inode' : Mem}
    (h : ∀ n, realBlockRead fs w' inode' n = realBlockRead fs w inode n) (fuel nr : ℕ) :
    freed fs w' inode' fuel nr = freed fs w inode fuel nr := by
  induction fuel generalizing nr with
  | zero => rfl
  | succ fuel ih => simp only [freed, h, ih]

/-- The loop frees the blocks up to the first hole. -/
theorem freeInodeBlocks_eq (hp : Placed fs w) (hm : Mapped fs {c | Metadata fs w c} w inode)
    (hblocks : ∀ n b, realBlockRead fs w inode n = some b → b ≠ 0 →
      fs.firstDataBlock ≤ b ∧ b < 2 ^ 32 ∧ (home fs b).1 < fs.groupsCount)
    (hnr : nr ≤ 2 ^ 32) (hfuel : 2 ^ 32 < nr + fuel) :
    freeInodeBlocks fs inode fuel nr w = some (freeAll fs w (freed fs w inode fuel nr)) := by
  induction fuel generalizing nr w with
  | zero => omega
  | succ fuel ih =>
      rw [freeInodeBlocks, freed]
      cases hread : realBlockRead fs w inode nr with
      | none => rfl
      | some b =>
          simp only
          split
          · rfl
          rename_i hb
          have hlt := lt_of_realBlockRead hread
          obtain ⟨hfirst, hb32, hg⟩ := hblocks nr b hread fun h => hb (Or.inl h)
          have hframe : Frame fs {c | Metadata fs w c} w (freeBlock fs w b).2 :=
            frame_giveBit hp (freeGroup_eq hfirst hb32 ▸ hg) _
          have hdisj : Disjoint {c | Metadata fs w c} (indirect fs w inode) :=
            Set.disjoint_right.mpr fun c hc => (hm.outside c hc).2
          have hsame := hframe.realBlockRead hp.sized hm hdisj
          have hm' := hframe.mapped hm hdisj
          rw [← hframe.metadata_eq] at hm'
          rw [ih (hframe.placed hp) hm' (fun n c hc => hblocks n c (by rwa [hsame] at hc)) (by omega)
            (by omega), freed_congr hsame, freeAll_cons]

theorem mem_freed (hok : ∀ n b, realBlockRead fs w inode n = some b → b ≠ minusOne) :
    b ∈ freed fs w inode fuel nr ↔ ∃ n, nr ≤ n ∧ n < nr + fuel ∧
      realBlockRead fs w inode n = some b ∧ ∀ m, nr ≤ m → m ≤ n → Maps fs w inode m := by
  induction fuel generalizing nr with
  | zero =>
      refine ⟨fun h => absurd h List.not_mem_nil, ?_⟩
      rintro ⟨n, h₁, h₂, -⟩
      omega
  | succ fuel ih =>
      rw [freed]
      cases hread : realBlockRead fs w inode nr with
      | none =>
          refine ⟨fun h => absurd h List.not_mem_nil, ?_⟩
          rintro ⟨n, h₁, -, -, hall⟩
          obtain ⟨c, -, hc⟩ := hall nr le_rfl h₁
          rw [hread] at hc
          exact absurd hc (by simp)
      | some c =>
          simp only
          by_cases hc : c = 0
          · rw [if_pos (Or.inl hc)]
            refine ⟨fun h => absurd h List.not_mem_nil, ?_⟩
            rintro ⟨n, h₁, -, -, hall⟩
            obtain ⟨c', hc', hread'⟩ := hall nr le_rfl h₁
            rw [hread] at hread'
            exact absurd ((Option.some.inj hread').symm.trans hc) hc'
          · rw [if_neg (by simp [hc, hok nr c hread]), List.mem_cons, ih]
            constructor
            · rintro (rfl | ⟨n, h₁, h₂, hn, hall⟩)
              · refine ⟨nr, le_rfl, by omega, hread, fun m h₁ h₂ => ?_⟩
                obtain rfl : m = nr := by omega
                exact ⟨b, hc, hread⟩
              · refine ⟨n, by omega, by omega, hn, fun m hm₁ hm₂ => ?_⟩
                by_cases hm : m = nr
                · exact hm ▸ ⟨c, hc, hread⟩
                · exact hall m (by omega) hm₂
            · rintro ⟨n, h₁, h₂, hn, hall⟩
              by_cases hnr : n = nr
              · subst hnr
                exact Or.inl (Option.some.inj (hn.symm.trans hread))
              · exact Or.inr ⟨n, by omega, by omega, hn, fun m hm₁ hm₂ => hall m (by omega) hm₂⟩

theorem nodup_freed (hok : ∀ n b, realBlockRead fs w inode n = some b → b ≠ minusOne)
    (hinj : ∀ n m b, b ≠ 0 → realBlockRead fs w inode n = some b →
      realBlockRead fs w inode m = some b → n = m) :
    (freed fs w inode fuel nr).Nodup := by
  induction fuel generalizing nr with
  | zero => exact List.nodup_nil
  | succ fuel ih =>
      rw [freed]
      cases hread : realBlockRead fs w inode nr with
      | none => exact List.nodup_nil
      | some c =>
          simp only
          split
          · exact List.nodup_nil
          · rename_i hc
            refine List.nodup_cons.mpr ⟨fun hmem => ?_, ih⟩
            obtain ⟨n, hlt, -, hn, -⟩ := (mem_freed hok).mp hmem
            have := hinj n nr c (fun h => hc (Or.inl h)) hn hread
            omega

/-! ## The whole inode -/

theorem OnVolume.blocks (h : OnVolume fs w v) (hb : b ∈ fileBlocks fs w (diskInode fs w v)) :
    fs.firstDataBlock ≤ b ∧ b < 2 ^ 32 ∧ (home fs b).1 < fs.groupsCount := by
  obtain ⟨hfirst, hg, -⟩ := h.used b hb
  have hlt := ((h.filed.blocks hb).1.ne_minusOne h.placed.sized).1
  exact ⟨hfirst, by omega, hg⟩

theorem OnVolume.numbersOk (h : OnVolume fs w v) (n b : ℕ)
    (hn : realBlockRead fs w (diskInode fs w v) n = some b) : b ≠ minusOne := by
  by_cases hb : b = 0
  · rw [hb]
    decide
  · exact ((h.filed.data b ⟨hb, n, hn⟩).1.ne_minusOne h.placed.sized).2

/-- The blocks that are freed. -/
def freedBlocks (fs : Fs) (w : World) (v : ℕ) : List ℕ :=
  freed fs w (diskInode fs w v) (2 ^ 32 + 1) 0

theorem OnVolume.mem_freedBlocks (h : OnVolume fs w v) : b ∈ freedBlocks fs w v ↔
    ∃ n, realBlockRead fs w (diskInode fs w v) n = some b ∧
      ∀ m ≤ n, Maps fs w (diskInode fs w v) m := by
  unfold freedBlocks
  rw [mem_freed h.numbersOk]
  constructor
  · rintro ⟨n, -, -, hn, hall⟩
    exact ⟨n, hn, fun m hm => hall m (Nat.zero_le m) hm⟩
  · rintro ⟨n, hn, hall⟩
    have hlt := lt_of_realBlockRead hn
    exact ⟨n, Nat.zero_le n, by omega, hn, fun m _ hm => hall m hm⟩

theorem OnVolume.freedBlocks_subset (h : OnVolume fs w v) (hb : b ∈ freedBlocks fs w v) :
    b ∈ dataBlocks fs w (diskInode fs w v) := by
  obtain ⟨n, hn, hall⟩ := h.mem_freedBlocks.mp hb
  obtain ⟨c, hc, hn'⟩ := hall n le_rfl
  rw [hn] at hn'
  exact ⟨fun h0 => hc ((Option.some.inj hn').symm.trans h0), n, hn⟩

/-- **What freeing the inode of a regular file does.** -/
theorem freeInode_regular (h : OnVolume fs w v) (hfree : freeInode fs w v = some (true, w')) :
    (∀ g < fs.groupsCount, ∀ j < 8 * fs.blksize, bit fs w' .block g j = true ↔
      bit fs w .block g j = true ∧
        ∀ b ∈ freedBlocks fs w v, BitServed fs w b → freePos fs b ≠ (g, j)) ∧
    (∀ g < fs.groupsCount, ∀ j < 8 * fs.blksize, bit fs w' .inode g j = true ↔
      bit fs w .inode g j = true ∧ inodeHome fs v ≠ (g, j)) ∧
    w'.sFreeInodes ≡ w.sFreeInodes + 1 [MOD 2 ^ 32] ∧
    ((∀ b ∈ freedBlocks fs w v, BitServed fs w b) →
      w'.sFreeBlocks ≡ w.sFreeBlocks + (freedBlocks fs w v).length [MOD 2 ^ 32]) := by
  have hmap := sameMap_inodeBuf (w := w) (v := v) h.inodeSize
  have hmapped : Mapped fs {c | Metadata fs w c} w (inodeBuf fs w v) := hmap.mapped h.filed.toMapped
  have hblocks : ∀ n b, realBlockRead fs w (inodeBuf fs w v) n = some b → b ≠ 0 →
      fs.firstDataBlock ≤ b ∧ b < 2 ^ 32 ∧ (home fs b).1 < fs.groupsCount := by
    intro n b hn hb
    rw [hmap.realBlockRead] at hn
    exact h.blocks (Or.inr ⟨hb, n, hn⟩)
  have hmode : modeDir (inodeBuf fs w v) = false := by
    rw [← h.regular]
    unfold modeDir
    rw [iMode_inodeBuf h.inodeSize]
  obtain ⟨hframe, hbits, hinode, hinodes, hcount⟩ := @freeAll_spec fs w (freedBlocks fs w v) h.placed
    fun b hb => h.blocks (Or.inr (h.freedBlocks_subset hb))
  have hgive : giveBit fs .inode (freeAll fs w (freedBlocks fs w v)) (inodeHome fs v).1
      (inodeHome fs v).2 = (true, w') := by
    have hloop := @freeInodeBlocks_eq _ _ 0 (2 ^ 32 + 1) _ h.placed hmapped hblocks (Nat.zero_le _)
      (by omega)
    rw [freed_congr (hmap.realBlockRead (w := w))] at hloop
    unfold freeInode at hfree
    simp only [Option.bind_eq_bind, h.read, Option.bind_some, Option.getD_some, hmode,
      Bool.false_eq_true, if_false, Bool.true_eq_false, hloop] at hfree
    exact Option.some.inj hfree
  obtain ⟨-, ⟨hno, -⟩ | ⟨-, htotal, -, hone⟩⟩ := giveBit_spec (hframe.placed h.placed) h.group hgive
  · exact absurd hno (by simp)
  have hblock : w'.sFreeBlocks = (freeAll fs w (freedBlocks fs w v)).sFreeBlocks := htotal .block
  have hino : w'.sFreeInodes = ((freeAll fs w (freedBlocks fs w v)).sFreeInodes + 1) % 2 ^ 32 :=
    htotal .inode
  refine ⟨fun g hg j hj => ?_, fun g hg j hj => ?_, ?_, fun hall => ?_⟩
  · rw [hone .block g hg j hj, ← hbits g hg j hj]
    simp
  · rw [hone .inode g hg j hj, hinode g hg j hj]
    simp only [Bool.and_eq_true, Bool.not_eq_true', decide_eq_false_iff_not, Prod.mk.injEq, true_and]
    rw [ne_comm, ne_eq, Prod.ext_iff]
  · rw [hino, hinodes]
    exact Nat.mod_modEq _ _
  · rw [hblock]
    exact hcount hall

/-- Blocks that lose their own bit have smaller ones freed in their place, or are freed themselves. -/
theorem OnVolume.freed_of_cleared (h : OnVolume fs w v)
    (hb : b ∈ fileBlocks fs w (diskInode fs w v)) {c : ℕ} (hc : c ∈ freedBlocks fs w v)
    (hpos : freePos fs c = home fs b) : c + fs.firstDataBlock = b := by
  obtain ⟨hfirst, -, -⟩ := h.blocks hb
  obtain ⟨hfirst', hc32, -⟩ := h.blocks (Or.inr (h.freedBlocks_subset hc))
  rw [freePos_eq hfirst' hc32] at hpos
  obtain ⟨hgroup, hoff⟩ := Prod.mk.inj hpos
  have hb' := Nat.div_add_mod (b - fs.firstDataBlock) fs.blkPerGroup
  have hc' := Nat.div_add_mod (c - fs.firstDataBlock) fs.blkPerGroup
  unfold home at hgroup hoff
  simp only at hgroup hoff
  rw [hgroup] at hc'
  omega

/-- **When all blocks of a file are given back.** -/
theorem freeInode_frees_iff (h : OnVolume fs w v) (hfree : freeInode fs w v = some (true, w')) :
    FreedAll fs w w' v ↔ FreeFits fs w (diskInode fs w v) := by
  obtain ⟨hblock, hinode, hinodes, hcount⟩ := freeInode_regular h hfree
  set blocks := fileBlocks fs w (diskInode fs w v) with hblocks
  have hhome : ∀ b ∈ blocks, (home fs b).1 < fs.groupsCount ∧ (home fs b).2 < 8 * fs.blksize ∧
      bit fs w .block (home fs b).1 (home fs b).2 = true := by
    intro b hb
    obtain ⟨-, hg, hset⟩ := h.used b hb
    have hlt : (home fs b).2 < fs.blkPerGroup := Nat.mod_lt _ h.blkPerGroup.1
    have hper := h.blkPerGroup.2
    exact ⟨hg, by omega, hset⟩
  constructor
  · intro hall
    by_cases hempty : blocks = ∅
    · exact Or.inl hempty
    -- every block has lost its bit to a block that was freed
    have hlost : ∀ b ∈ blocks, ∃ c ∈ freedBlocks fs w v, BitServed fs w c ∧
        c + fs.firstDataBlock = b := by
      intro b hb
      obtain ⟨hg, hj, hset⟩ := hhome b hb
      have hclear : ¬ (bit fs w' .block (home fs b).1 (home fs b).2 = true) := fun hset' =>
        ((hall.block _ hg _ hj).mp hset').2 b hb rfl
      rw [hblock _ hg _ hj] at hclear
      simp only [hset, true_and, not_forall, not_not] at hclear
      obtain ⟨c, hc, hserved, hpos⟩ := hclear
      exact ⟨c, hc, hserved, h.freed_of_cleared hb hc hpos⟩
    have hfirst : fs.firstDataBlock = 0 := by
      by_contra hne
      have hdown : ∀ n, ∀ b ∈ blocks, b ≤ n → False := by
        intro n
        induction n with
        | zero =>
            intro b hb hle
            obtain ⟨c, -, -, heq⟩ := hlost b hb
            omega
        | succ n ih =>
            intro b hb hle
            obtain ⟨c, hc, -, heq⟩ := hlost b hb
            exact ih c (Or.inr (h.freedBlocks_subset hc)) (by omega)
      obtain ⟨b, hb⟩ := Set.nonempty_iff_ne_empty.mpr hempty
      exact hdown b b hb le_rfl
    have hfreed : ∀ b ∈ blocks, b ∈ freedBlocks fs w v ∧ BitServed fs w b := by
      intro b hb
      obtain ⟨c, hc, hserved, heq⟩ := hlost b hb
      obtain rfl : c = b := by omega
      exact ⟨hc, hserved⟩
    refine Or.inr ⟨hfirst, ?_, ?_, fun b hb => (hfreed b (Or.inr hb)).2⟩
    · rw [Set.eq_empty_iff_forall_notMem]
      intro b hb
      have hdata := h.freedBlocks_subset (hfreed b (Or.inl hb)).1
      exact (h.filed.data b hdata).2.2 hb
    · rintro n m hnm ⟨b, hb0, hm⟩
      obtain ⟨n', hn', hmaps⟩ := h.mem_freedBlocks.mp (hfreed b (Or.inr ⟨hb0, m, hm⟩)).1
      obtain rfl := h.filed.inj m n' b hb0 hm hn'
      exact hmaps n hnm
  · intro hfits
    -- the blocks that are freed are the blocks of the file
    obtain ⟨hsame, hzero⟩ : (∀ b, b ∈ freedBlocks fs w v ↔ b ∈ blocks) ∧
        ∀ b ∈ freedBlocks fs w v, BitServed fs w b ∧ fs.firstDataBlock = 0 := by
      rcases hfits with hempty | ⟨hfirst, hind, hholes, hserved⟩
      · have hnone : ∀ b, b ∉ freedBlocks fs w v := fun b hb => by
          have hmem : b ∈ blocks := Or.inr (h.freedBlocks_subset hb)
          rw [hblocks, hempty] at hmem
          exact hmem
        refine ⟨fun b => ⟨fun hb => absurd hb (hnone b), fun hb => ?_⟩,
          fun b hb => absurd hb (hnone b)⟩
        rw [hblocks, hempty] at hb
        exact absurd hb (Set.notMem_empty b)
      · refine ⟨fun b => ⟨fun hb => Or.inr (h.freedBlocks_subset hb), ?_⟩,
          fun b hb => ⟨hserved b (h.freedBlocks_subset hb), hfirst⟩⟩
        rintro (hb | ⟨hb0, n, hn⟩)
        · rw [hind] at hb
          exact absurd hb (Set.notMem_empty b)
        · exact h.mem_freedBlocks.mpr ⟨n, hn, fun m hm => hholes m n hm ⟨b, hb0, hn⟩⟩
    refine ⟨fun g hg j hj => ?_, hinode, ?_, hinodes⟩
    · rw [hblock g hg j hj]
      refine and_congr_right fun _ => ⟨fun hno b hb heq => ?_, fun hno b hb _ heq => ?_⟩
      · have hb' := (hsame b).mpr hb
        obtain ⟨hserved, hfirst⟩ := hzero b hb'
        obtain ⟨hle, hb32, -⟩ := h.blocks hb
        refine hno b hb' hserved ?_
        rw [freePos_eq hle hb32, hfirst, Nat.add_zero]
        exact heq
      · obtain ⟨-, hfirst⟩ := hzero b hb
        obtain ⟨hle, hb32, -⟩ := h.blocks ((hsame b).mp hb)
        rw [freePos_eq hle hb32, hfirst, Nat.add_zero] at heq
        exact hno b ((hsame b).mp hb) heq
    · have hcard : blocks.ncard = (freedBlocks fs w v).length := by
        have heq : blocks = ↑(freedBlocks fs w v).toFinset := by
          ext b
          simp only [List.coe_toFinset, Set.mem_ofPred_eq]
          exact (hsame b).symm
        rw [heq, Set.ncard_coe_finset, List.toFinset_card_of_nodup]
        exact nodup_freed h.numbersOk h.filed.inj
      rw [hcard]
      exact hcount fun b hb => (hzero b hb).1

end

/-! ## A file of one block -/

/-- A volume with a regular file, inode 11, whose logical block `slot` is block 20. -/
def usedFile (slot : ℕ) : World :=
  { oneFile 0 with
    disk := ((Mem.zero.set16 9472 0x81A4).set32 (9512 + 4 * slot) 20).set16 4098 0x10 }

theorem bitmapBlock_usedFile (slot : ℕ) (k : Kind) :
    bitmapBlock k (usedFile slot).groupDesc 0 = match k with | .block => 2 | .inode => 3 := by
  have hold := @bitmapBlock_almostFull 1 0 (by omega) k
  unfold bitmapBlock usedFile oneFile
  simp only
  rw [Mem.get32_set32_of_disjoint (by cases k <;> simp [Kind.bitmapOff])]
  unfold bitmapBlock at hold
  rw [hold]
  cases k <;> rfl

theorem usedFile_placed (slot : ℕ) : Placed (almostFullFs 1 0) (usedFile slot) := by
  have hgroup : ∀ g, g < (almostFullFs 1 0).groupsCount → g = 0 := fun g hg => by
    simpa [almostFullFs] using hg
  have hgdt : (almostFullFs 1 0).firstBlockGroupNo = 1 := rfl
  refine ⟨almostFullFs_sized le_rfl, by norm_num [Fs.Addressable, almostFullFs],
    Or.inl (by norm_num [almostFullFs]), fun k g hg => ?_, fun k g hg k' g' hg' hne => ?_⟩
  · obtain rfl := hgroup g hg
    rw [bitmapBlock_usedFile, hgdt]
    cases k <;> norm_num [Fs.Addressable, almostFullFs]
  · obtain rfl := hgroup g hg
    obtain rfl := hgroup g' hg'
    rw [bitmapBlock_usedFile, bitmapBlock_usedFile]
    cases k <;> cases k' <;> simp at hne ⊢

theorem inodeToBlock_usedFile (slot : ℕ) :
    inodeToBlock (almostFullFs 1 0) (usedFile slot) 11 = some (4, 1280) := by
  have hgd : (usedFile slot).groupDesc = (oneFile 0).groupDesc := rfl
  have hto := inodeToBlock_oneFile 0
  unfold inodeToBlock at hto ⊢
  rw [hgd]
  exact hto

theorem usedFile_byte (slot x : ℕ) :
    diskInode (almostFullFs 1 0) (usedFile slot) 11 x = (usedFile slot).disk (9472 + x) := by
  have haddr : (almostFullFs 1 0).Addressable 4 := by norm_num [Fs.Addressable, almostFullFs]
  rw [diskInode_eq (inodeToBlock_usedFile slot)]
  simp only [World.block, (almostFullFs_sized le_rfl).sector_eq haddr]
  congr 1
  simp only [almostFullFs]
  omega

theorem iBlock_usedFile {slot s : ℕ} :
    iBlock (diskInode (almostFullFs 1 0) (usedFile slot) 11) s = if s = slot then 20 else 0 := by
  have hdisk : iBlock (diskInode (almostFullFs 1 0) (usedFile slot) 11) s
      = (usedFile slot).disk.get32 (9512 + 4 * s) := by
    apply Mem.readLE_shift
    intro i hi
    rw [usedFile_byte]
    congr 1
    omega
  rw [hdisk]
  simp only [usedFile]
  rw [Mem.get32_set16_of_disjoint (by omega)]
  split
  · rename_i heq
    rw [heq]
    exact Mem.get32_set32_self _ _ _
  · rw [Mem.get32_set32_of_disjoint (by omega), Mem.get32_set16_of_disjoint (by omega)]
    rfl

theorem usedFile_onVolume {slot : ℕ} (hslot : slot = 0 ∨ slot = 1) :
    OnVolume (almostFullFs 1 0) (usedFile slot) 11 ∧
      indirect (almostFullFs 1 0) (usedFile slot)
        (diskInode (almostFullFs 1 0) (usedFile slot) 11) = ∅ ∧
      ∀ n b, b ≠ 0 → realBlockRead (almostFullFs 1 0) (usedFile slot)
        (diskInode (almostFullFs 1 0) (usedFile slot) 11) n = some b → n = slot ∧ b = 20 := by
  have hs : (almostFullFs 1 0).Sized := almostFullFs_sized le_rfl
  have hmeta : ¬ Metadata (almostFullFs 1 0) (usedFile slot) 20 := by
    rintro (h | h | ⟨k, g, hg, h⟩)
    · omega
    · exact absurd h (by simp [almostFullFs])
    · obtain rfl : g = 0 := by simpa [almostFullFs] using hg
      rw [bitmapBlock_usedFile] at h
      cases k <;> simp at h
  obtain ⟨hfiled, hind, hread⟩ := @filed_of_direct _ (usedFile slot)
    {c | Metadata (almostFullFs 1 0) (usedFile slot) c}
    (diskInode (almostFullFs 1 0) (usedFile slot) 11) hs
    (fun s h₁ _ => by rw [iBlock_usedFile, if_neg (by omega)])
    (fun s _ hne => by
      rw [iBlock_usedFile] at hne ⊢
      split at hne
      · rename_i heq
        rw [if_pos heq]
        exact ⟨by norm_num [Fs.Addressable, almostFullFs], hmeta⟩
      · exact absurd rfl hne)
    (fun s _ t _ hne heq => by
      rw [iBlock_usedFile, iBlock_usedFile] at heq
      rw [iBlock_usedFile] at hne
      split at hne
      · split at heq
        · split at heq
          · omega
          · exact absurd heq (by omega)
        · omega
      · exact absurd rfl hne)
  have hdata : ∀ n b, b ≠ 0 → realBlockRead (almostFullFs 1 0) (usedFile slot)
      (diskInode (almostFullFs 1 0) (usedFile slot) 11) n = some b → n = slot ∧ b = 20 := by
    intro n b hb0 hn
    obtain ⟨-, rfl⟩ := hread n b hb0 hn
    rw [iBlock_usedFile] at hb0 ⊢
    split at hb0
    · rename_i heq
      exact ⟨heq, if_pos heq⟩
    · exact absurd rfl hb0
  have hhealthy : Healthy (almostFullFs 1 0) (usedFile slot) :=
    ⟨fun _ => rfl, fun _ => rfl, by norm_num [almostFullFs], by norm_num [almostFullFs]⟩
  have hplace : InodePlace (almostFullFs 1 0) ∅ (usedFile slot) 11 4 1280 :=
    ⟨inodeToBlock_usedFile slot, by simp [almostFullFs], by norm_num [Fs.Addressable, almostFullFs],
      Set.notMem_empty _⟩
  refine ⟨⟨usedFile_placed slot, by simp [almostFullFs], hhealthy.rwInodeRead_eq hs hplace, ?_,
    by norm_num [almostFullFs], hfiled, ?_, by norm_num [inodeHome, almostFullFs]⟩, hind, hdata⟩
  · rcases hslot with rfl | rfl <;> decide +kernel
  · rintro b (hb | ⟨hb0, n, hn⟩)
    · rw [hind] at hb
      exact absurd hb (Set.notMem_empty b)
    · obtain ⟨-, rfl⟩ := hdata n b hb0 hn
      refine ⟨Nat.zero_le _, by norm_num [home, almostFullFs], ?_⟩
      rcases hslot with rfl | rfl <;> decide +kernel

/-- The block of the file is its first, and it is given back. -/
theorem freeInode_frees_iff_first : ∃ w', freeInode (almostFullFs 1 0) (usedFile 0) 11 = some (true, w') ∧
    FreedAll (almostFullFs 1 0) (usedFile 0) w' 11 := by
  obtain ⟨hvolume, hind, hdata⟩ := usedFile_onVolume (Or.inl rfl)
  have hrun : (freeInode (almostFullFs 1 0) (usedFile 0) 11).map Prod.fst = some true := by
    decide +kernel
  obtain ⟨⟨ok, w'⟩, hfree, rfl⟩ := Option.map_eq_some_iff.mp hrun
  refine ⟨w', hfree, (freeInode_frees_iff hvolume hfree).mpr (Or.inr ⟨rfl, hind, ?_, fun b _ => ?_⟩)⟩
  · rintro n m hnm ⟨b, hb0, hm⟩
    obtain ⟨rfl, -⟩ := hdata m b hb0 hm
    obtain rfl : n = 0 := by omega
    exact ⟨b, hb0, hm⟩
  · exact ⟨⟨by norm_num [almostFullFs], fun _ _ => rfl⟩, by norm_num [almostFullFs], fun _ _ => rfl⟩

/-- The file starts with a hole, and its block stays in use. -/
theorem freeInode_can_leak :
    ¬ ∀ (fs : Fs) (w w' : World) (v : ℕ), OnVolume fs w v → freeInode fs w v = some (true, w') →
      FreedAll fs w w' v := by
  intro hall
  obtain ⟨hvolume, -, -⟩ := usedFile_onVolume (Or.inr rfl)
  have hrun : (freeInode (almostFullFs 1 0) (usedFile 1) 11).map
      (fun r => (r.1, bit (almostFullFs 1 0) r.2 .block 0 20)) = some (true, true) := by
    decide +kernel
  obtain ⟨⟨ok, w'⟩, hfree, heq⟩ := Option.map_eq_some_iff.mp hrun
  obtain ⟨rfl, hset⟩ := Prod.mk.inj heq
  have hlaw := (hall _ _ w' 11 hvolume hfree).block 0 (by simp [almostFullFs]) 20
    (by norm_num [almostFullFs])
  have hmapped : realBlockRead (almostFullFs 1 0) (usedFile 1)
      (diskInode (almostFullFs 1 0) (usedFile 1) 11) 1 = some 20 := by
    decide +kernel
  exact (hlaw.mp hset).2 20 (Or.inr ⟨by omega, 1, hmapped⟩) (by decide)

end Shaunos.Ext2
