import Shaunos.Ext2.BlockMap

/-!
# The content of a file

Reference: `Kernel/ext2.c` (`ext2_read`, `ext2_write`, `ext2_rw_inode`).

A byte of a file is a byte of the block that its logical block is mapped to, or 0 where no block is
mapped. `Filed` says that no block of a file is used twice. The lemmas are the steps from which
`ext2_write` is made: taking a block, writing a block, and mapping a block.

* `Filed.write_data` — writing a mapped block changes its bytes of the file;
* `Filed.map` — mapping a block shows the bytes it holds, and the other bytes of the file stay.
-/

namespace Shaunos.Ext2

/-! ## Definitions -/

/-- Byte `x` of a file. -/
def fileByte (fs : Fs) (w : World) (inode : Mem) (x : ℕ) : BitVec 8 :=
  match realBlockRead fs w inode (x / fs.blksize) with
  | none => 0
  | some b => if b = 0 then 0 else w.block fs b (x % fs.blksize)

/-- The blocks that hold the bytes of a file. -/
def dataBlocks (fs : Fs) (w : World) (inode : Mem) : Set ℕ :=
  {b | b ≠ 0 ∧ ∃ n, realBlockRead fs w inode n = some b}

/-- All blocks of a file. -/
def fileBlocks (fs : Fs) (w : World) (inode : Mem) : Set ℕ :=
  indirect fs w inode ∪ dataBlocks fs w inode

/-- No block of a file is used twice, and all of them lie within reach and outside `R`. -/
structure Filed (fs : Fs) (R : Set ℕ) (w : World) (inode : Mem) : Prop extends
    Mapped fs R w inode where
  data : ∀ b ∈ dataBlocks fs w inode, fs.Addressable b ∧ b ∉ R ∧ b ∉ indirect fs w inode
  inj : ∀ n m b, b ≠ 0 → realBlockRead fs w inode n = some b →
    realBlockRead fs w inode m = some b → n = m

section

variable {fs : Fs} {blocksCnt n b x : ℕ} {w w' : World} {R R' S : Set ℕ} {inode inode' buf : Mem}

theorem fileByte_of_some (h : realBlockRead fs w inode (x / fs.blksize) = some b) :
    fileByte fs w inode x = if b = 0 then 0 else w.block fs b (x % fs.blksize) := by
  rw [fileByte, h]

/-! ## Changes elsewhere -/

theorem Filed.blocks (h : Filed fs R w inode) (hb : b ∈ fileBlocks fs w inode) :
    fs.Addressable b ∧ b ∉ R := by
  rcases hb with hb | hb
  · exact h.outside b hb
  · exact ⟨(h.data b hb).1, (h.data b hb).2.1⟩

theorem Filed.mono (h : Filed fs R w inode) (hR : R' ⊆ R) : Filed fs R' w inode :=
  { h with
    outside := fun b hb => ⟨(h.outside b hb).1, fun hbR => (h.outside b hb).2 (hR hbR)⟩
    data := fun b hb => ⟨(h.data b hb).1, fun hbR => (h.data b hb).2.1 (hR hbR), (h.data b hb).2.2⟩ }

/-- A change elsewhere leaves the map of the file. -/
theorem Frame.dataBlocks (hs : fs.Sized) (h : Frame fs S w w') (hm : Mapped fs R w inode)
    (hS : Disjoint S (Ext2.indirect fs w inode)) :
    Ext2.dataBlocks fs w' inode = Ext2.dataBlocks fs w inode := by
  ext b
  refine and_congr_right fun _ => exists_congr fun n => ?_
  rw [h.realBlockRead hs hm hS]

theorem Frame.fileBlocks (hs : fs.Sized) (h : Frame fs S w w') (hm : Mapped fs R w inode)
    (hS : Disjoint S (Ext2.indirect fs w inode)) :
    Ext2.fileBlocks fs w' inode = Ext2.fileBlocks fs w inode := by
  rw [Ext2.fileBlocks, h.indirect hm hS, h.dataBlocks hs hm hS, Ext2.fileBlocks]

theorem Frame.filed (hs : fs.Sized) (h : Frame fs S w w') (hf : Filed fs R w inode)
    (hS : Disjoint S (Ext2.indirect fs w inode)) : Filed fs R w' inode := by
  refine ⟨h.mapped hf.toMapped hS, ?_, ?_⟩
  · rw [h.dataBlocks hs hf.toMapped hS, h.indirect hf.toMapped hS]
    exact hf.data
  · intro n m b hb
    rw [h.realBlockRead hs hf.toMapped hS, h.realBlockRead hs hf.toMapped hS]
    exact hf.inj n m b hb

/-- Bytes of a file in blocks that are not touched. -/
theorem Frame.fileByte (hs : fs.Sized) (h : Frame fs S w w') (hf : Filed fs R w inode)
    (hS : Disjoint S (Ext2.indirect fs w inode))
    (hx : ∀ b, Ext2.realBlockRead fs w inode (x / fs.blksize) = some b → b ≠ 0 → b ∉ S) :
    Ext2.fileByte fs w' inode x = Ext2.fileByte fs w inode x := by
  have hpos := hs.pos
  unfold Ext2.fileByte
  rw [h.realBlockRead hs hf.toMapped hS]
  split
  · rfl
  · rename_i b hb
    split
    · rfl
    · rename_i hb0
      have hmem : b ∈ Ext2.dataBlocks fs w inode := ⟨hb0, _, hb⟩
      exact h.block b (hf.data b hmem).1 (hx b hb hb0) _ (Nat.mod_lt _ (by omega))

/-- A file does not see a change outside its blocks. -/
theorem Frame.fileByte_of_disjoint (hs : fs.Sized) (h : Frame fs S w w') (hf : Filed fs R w inode)
    (hS : Disjoint S (Ext2.fileBlocks fs w inode)) (x : ℕ) :
    Ext2.fileByte fs w' inode x = Ext2.fileByte fs w inode x := by
  have hS' : Disjoint S (Ext2.indirect fs w inode) := hS.mono_right Set.subset_union_left
  apply h.fileByte hs hf hS'
  intro b hb hb0 hbS
  exact Set.disjoint_left.mp hS hbS (Or.inr ⟨hb0, _, hb⟩)

/-! ## Writing and mapping a block -/

/-- **Writing a mapped block.** -/
theorem Filed.write_data (hs : fs.Sized) (hf : Filed fs R w inode) (hb0 : b ≠ 0)
    (hn : realBlockRead fs w inode n = some b) (h : rwBlockWrite fs w b buf = some w') :
    Frame fs {b} w w' ∧ w'.groupDesc = w.groupDesc ∧ Disjoint {b} (indirect fs w inode) ∧
      ∀ x, fileByte fs w' inode x
        = if x / fs.blksize = n then buf (x % fs.blksize) else fileByte fs w inode x := by
  have hpos := hs.pos
  obtain ⟨haddr, -, hind⟩ := hf.data b ⟨hb0, n, hn⟩
  obtain ⟨hframe, hgd, -, hself⟩ := frame_rwBlockWrite hs haddr h
  have hdisj : Disjoint {b} (indirect fs w inode) := Set.disjoint_singleton_left.mpr hind
  refine ⟨hframe, hgd, hdisj, fun x => ?_⟩
  split
  · rename_i hx
    have hread : realBlockRead fs w' inode (x / fs.blksize) = some b := by
      rw [hframe.realBlockRead hs hf.toMapped hdisj, hx, hn]
    rw [fileByte_of_some hread, if_neg hb0]
    exact hself _ (Nat.mod_lt _ (by omega))
  · rename_i hx
    apply hframe.fileByte hs hf hdisj
    rintro c hc hc0 rfl
    exact hx (hf.inj _ _ c hc0 hc hn)

/-- **Mapping a block.** The block is the one that was mapped there, or one that no file has. -/
theorem Filed.map {need : ℕ} (hs : fs.Sized) (hf : Filed fs R w inode) (hb0 : b ≠ 0)
    (hb : fs.Addressable b ∧ b ∉ R ∧ b ∉ indirect fs w inode)
    (hfresh : ∀ m, realBlockRead fs w inode m = some b → m = n)
    (h : MapWritten fs blocksCnt R w w' inode inode' need n b) :
    (∀ x, fileByte fs w' inode' x
      = if x / fs.blksize = n then w.block fs b (x % fs.blksize) else fileByte fs w inode x) ∧
    ∃ R' ⊆ R, Filed fs R' w' inode' ∧
      fileBlocks fs w' inode' ⊆ insert b (fileBlocks fs w inode) ∪ R \ R' ∧
      (∀ k, Supply fs blocksCnt R (need + k) w → Supply fs blocksCnt R' k w') ∧
      ∀ k, WayComplete fs w inode n →
        (Reserve fs blocksCnt R k w → Reserve fs blocksCnt R' k w') ∧
        (Supply fs blocksCnt R k w → Supply fs blocksCnt R' k w') := by
  have hpos := hs.pos
  obtain ⟨R', hR', hmapped, hind, hsupply, hreserve⟩ := h.reserve
  -- a block of the file that is not an indirect block keeps its bytes
  have hkeep : ∀ c, fs.Addressable c → c ∉ R → c ∉ indirect fs w inode → ∀ i < fs.blksize,
      w'.block fs c i = w.block fs c i := fun c hc hcR hci =>
    h.frame.block c hc fun hmem => hmem.elim hci hcR
  have hlookup : ∀ m c, c ≠ 0 → realBlockRead fs w' inode' m = some c →
      (m = n ∧ c = b) ∨ (m ≠ n ∧ realBlockRead fs w inode m = some c) := by
    intro m c _ hm
    by_cases hmn : m = n
    · subst hmn
      rw [h.value] at hm
      exact Or.inl ⟨rfl, (Option.some.inj hm).symm⟩
    · rw [h.other m hmn] at hm
      exact Or.inr ⟨hmn, hm⟩
  have hsub : ∀ c ∈ dataBlocks fs w' inode', c = b ∨ c ∈ dataBlocks fs w inode := by
    rintro c ⟨hc0, m, hm⟩
    rcases hlookup m c hc0 hm with ⟨-, hcb⟩ | ⟨-, hm⟩
    · exact Or.inl hcb
    · exact Or.inr ⟨hc0, m, hm⟩
  have hout : ∀ c ∈ dataBlocks fs w' inode',
      fs.Addressable c ∧ c ∉ R ∧ c ∉ indirect fs w inode := fun c hc =>
    (hsub c hc).elim (fun heq => heq ▸ hb) (hf.data c)
  refine ⟨fun x => ?_, R', hR', ⟨hmapped, fun c hc => ?_, fun m m' c hc0 hm hm' => ?_⟩, ?_, hsupply,
    hreserve⟩
  · split
    · rename_i hx
      rw [fileByte_of_some (hx ▸ h.value), if_neg hb0]
      exact hkeep b hb.1 hb.2.1 hb.2.2 _ (Nat.mod_lt _ (by omega))
    · rename_i hx
      unfold fileByte
      rw [h.other _ hx]
      split
      · rfl
      · rename_i c hc
        split
        · rfl
        · rename_i hc0
          obtain ⟨h₁, h₂, h₃⟩ := hf.data c ⟨hc0, _, hc⟩
          exact hkeep c h₁ h₂ h₃ _ (Nat.mod_lt _ (by omega))
  · obtain ⟨h₁, h₂, h₃⟩ := hout c hc
    exact ⟨h₁, fun hcR => h₂ (hR' hcR), fun hci => (hind hci).elim h₃ fun hcR => h₂ hcR.1⟩
  · rcases hlookup m c hc0 hm with ⟨rfl, rfl⟩ | ⟨hmn, hm⟩
    · rcases hlookup m' c hc0 hm' with ⟨rfl, -⟩ | ⟨-, hm'⟩
      · rfl
      · exact (hfresh m' hm').symm
    · rcases hlookup m' c hc0 hm' with ⟨rfl, rfl⟩ | ⟨-, hm'⟩
      · exact hfresh m hm
      · exact hf.inj m m' c hc0 hm hm'
  · rintro c (hc | hc)
    · exact (hind hc).imp (fun hc => Or.inr (Or.inl hc)) id
    · exact Or.inl ((hsub c hc).imp id Or.inr)

/-! ## Other fields of the inode -/

/-- The map is in the inode's own block numbers. -/
def SameMap (inode inode' : Mem) : Prop := ∀ s < 15, iBlock inode' s = iBlock inode s

theorem SameMap.realBlockRead (h : SameMap inode inode') (n : ℕ) :
    Ext2.realBlockRead fs w inode' n = Ext2.realBlockRead fs w inode n := by
  unfold Ext2.realBlockRead
  cases hpath : realBlockPath fs n with
  | none => rfl
  | some path =>
      obtain ⟨slot, is⟩ := path
      simp only [Option.bind_eq_bind, Option.bind_some, h slot (realBlockPath_eq_some hpath).1]

theorem SameMap.indirect (h : SameMap inode inode') :
    Ext2.indirect fs w inode' = Ext2.indirect fs w inode := by
  ext b
  refine exists_congr fun s => and_congr_right fun hs => ?_
  rw [h s hs]

theorem SameMap.fileByte (h : SameMap inode inode') (x : ℕ) :
    Ext2.fileByte fs w inode' x = Ext2.fileByte fs w inode x := by
  rw [Ext2.fileByte, h.realBlockRead, Ext2.fileByte]

theorem SameMap.dataBlocks (h : SameMap inode inode') :
    Ext2.dataBlocks fs w inode' = Ext2.dataBlocks fs w inode := by
  ext b
  refine and_congr_right fun _ => exists_congr fun n => ?_
  rw [h.realBlockRead]

theorem SameMap.fileBlocks (h : SameMap inode inode') :
    Ext2.fileBlocks fs w inode' = Ext2.fileBlocks fs w inode := by
  rw [Ext2.fileBlocks, h.indirect, h.dataBlocks, Ext2.fileBlocks]

theorem SameMap.wayComplete (h : SameMap inode inode') (n : ℕ) :
    WayComplete fs w inode' n ↔ WayComplete fs w inode n := by
  refine forall_congr' fun slot => forall_congr' fun is => forall_congr' fun hpath => ?_
  rw [h slot (realBlockPath_eq_some hpath).1]

theorem SameMap.mapped (h : SameMap inode inode') (hm : Mapped fs R w inode) :
    Mapped fs R w inode' := by
  refine ⟨fun s hs => ?_, fun s hs t ht hst => ?_, ?_⟩
  · rw [h s hs]
    exact hm.separate s hs
  · rw [h s hs, h t ht]
    exact hm.disjoint s hs t ht hst
  · rw [h.indirect]
    exact hm.outside

theorem SameMap.filed (h : SameMap inode inode') (hf : Filed fs R w inode) :
    Filed fs R w inode' := by
  refine ⟨h.mapped hf.toMapped, ?_, fun n m b hb => ?_⟩
  · rw [h.dataBlocks, h.indirect]
    exact hf.data
  · rw [h.realBlockRead, h.realBlockRead]
    exact hf.inj n m b hb

/-- A file without indirect blocks: its blocks are the numbers in the inode. -/
theorem filed_of_direct (hs : fs.Sized) (hzero : ∀ s, 12 ≤ s → s < 15 → iBlock inode s = 0)
    (hout : ∀ s < 12, iBlock inode s ≠ 0 → fs.Addressable (iBlock inode s) ∧ iBlock inode s ∉ R)
    (hinj : ∀ s < 12, ∀ t < 12, iBlock inode s ≠ 0 → iBlock inode s = iBlock inode t → s = t) :
    Filed fs R w inode ∧ indirect fs w inode = ∅ ∧
      ∀ n b, b ≠ 0 → realBlockRead fs w inode n = some b → n < 12 ∧ b = iBlock inode n := by
  have hnodes : ∀ s < 15, PtrTree.nodes (blockEntries fs w) (levels s) (iBlock inode s) = ∅ := by
    intro s hs
    by_cases hlt : s < 12
    · rw [levels, Nat.sub_eq_zero_of_le (by omega)]
      rfl
    · rw [hzero s (by omega) hs, PtrTree.nodes_zero]
  have hind : indirect fs w inode = ∅ := by
    rw [Set.eq_empty_iff_forall_notMem]
    rintro b ⟨s, hs, hb⟩
    rw [hnodes s hs] at hb
    exact hb
  have hread : ∀ n b, b ≠ 0 → realBlockRead fs w inode n = some b → n < 12 ∧ b = iBlock inode n := by
    intro n b hb0 hb
    by_cases hn : n < 12
    · have hpath : realBlockPath fs n = some (n, []) := by
        unfold realBlockPath
        rw [if_pos hn]
      rw [realBlockRead_eq hs hpath, PtrTree.walk] at hb
      exact ⟨hn, (Option.some.inj hb).symm⟩
    · cases hpath : realBlockPath fs n with
      | none =>
          rw [realBlockRead, hpath] at hb
          exact absurd hb (by simp)
      | some path =>
          obtain ⟨slot, is⟩ := path
          have hslot : 12 ≤ slot := by
            obtain ⟨-, hlen, -⟩ := realBlockPath_eq_some hpath
            by_contra hlt
            rw [levels, Nat.sub_eq_zero_of_le (by omega)] at hlen
            obtain rfl := List.length_eq_zero_iff.mp hlen
            have hat : slot = n := blockAt_of_path hpath
            omega
          rw [realBlockRead_eq hs hpath, hzero slot hslot (realBlockPath_eq_some hpath).1,
            PtrTree.walk_zero] at hb
          exact absurd (Option.some.inj hb).symm hb0
  refine ⟨⟨⟨fun s hs => ?_, fun s hs t ht _ => ?_, ?_⟩, ?_, fun n m b hb0 hn hm => ?_⟩, hind, hread⟩
  · by_cases hlt : s < 12
    · rw [levels, Nat.sub_eq_zero_of_le (by omega)]
      trivial
    · rw [hzero s (by omega) hs]
      exact PtrTree.separate_zero _ _
  · rw [hnodes s hs]
    exact Set.empty_disjoint _
  · rw [hind]
    exact fun b hb => absurd hb (Set.notMem_empty b)
  · rintro b ⟨hb0, n, hn⟩
    obtain ⟨hlt, rfl⟩ := hread n b hb0 hn
    rw [hind]
    exact ⟨(hout n hlt hb0).1, (hout n hlt hb0).2, Set.notMem_empty _⟩
  · obtain ⟨hn', rfl⟩ := hread n b hb0 hn
    obtain ⟨hm', heq⟩ := hread m _ hb0 hm
    exact hinj n hn' m hm' hb0 heq

/-- The way to a mapped block is complete. -/
theorem wayComplete_of_mapped (hs : fs.Sized) (hb0 : b ≠ 0)
    (h : realBlockRead fs w inode n = some b) : WayComplete fs w inode n := by
  intro slot is hpath
  rw [realBlockRead_eq hs hpath] at h
  exact PtrTree.complete_of_walk hb0 h

end

/-! ## Growing a file -/

/-- The number of indirect blocks on the way to a logical block. -/
def wayLength (fs : Fs) (n : ℕ) : ℕ := ((realBlockPath fs n).map fun path => path.2.length).getD 0

/-- A reserve of which it is known, if `B`, that its free blocks hold zeros. -/
def Stock (fs : Fs) (blocksCnt : ℕ) (B : Prop) (R : Set ℕ) (k : ℕ) (w : World) : Prop :=
  Reserve fs blocksCnt R k w ∧ (B → Supply fs blocksCnt R k w)

/-- The fields of an inode that a write leaves alone: all but the size, the count of sectors and the
block numbers. -/
def Kept (x : ℕ) : Prop := (x < 4 ∨ 8 ≤ x) ∧ (x < 28 ∨ 32 ≤ x) ∧ (x < 40 ∨ 100 ≤ x)

/-- What a part of a write does to a file: its new blocks come from the reserve, and nothing but its
blocks and the reserve is touched. -/
structure Grown (fs : Fs) (R R' : Set ℕ) (w w' : World) (inode inode' : Mem) : Prop where
  sub : R' ⊆ R
  filed : Filed fs R' w' inode'
  frame : Frame fs (fileBlocks fs w inode ∪ R) w w'
  blocks : fileBlocks fs w' inode' ⊆ fileBlocks fs w inode ∪ R \ R'
  complete : ∀ m, WayComplete fs w inode m → WayComplete fs w' inode' m
  rest : ∀ x, Kept x → inode' x = inode x

/-- What becomes of a file when block `b` is written with `tmp` and stands for logical block `n`. -/
structure Put (fs : Fs) (blocksCnt : ℕ) (B : Prop) (R R' : Set ℕ) (w w' : World)
    (inode inode' : Mem) (n b : ℕ) (tmp : Mem) : Prop where
  sub : R' ⊆ R
  filed : Filed fs R' w' inode'
  frame : Frame fs (insert b (fileBlocks fs w inode) ∪ R) w w'
  blocks : fileBlocks fs w' inode' ⊆ insert b (fileBlocks fs w inode) ∪ R \ R'
  complete : ∀ m, WayComplete fs w inode m → WayComplete fs w' inode' m
  rest : ∀ x, (x < 28 ∨ 32 ≤ x) → (x < 40 ∨ 100 ≤ x) → inode' x = inode x
  stock : ∀ k, WayComplete fs w inode n → Stock fs blocksCnt B R k w → Stock fs blocksCnt B R' k w'
  stock_blank : ∀ k, B → Stock fs blocksCnt B R (wayLength fs n + k) w →
    Stock fs blocksCnt B R' k w'
  other : ∀ m, m ≠ n → realBlockRead fs w' inode' m = realBlockRead fs w inode m
  bytes : ∀ x, fileByte fs w' inode' x
    = if x / fs.blksize = n then tmp (x % fs.blksize) else fileByte fs w inode x

section

variable {fs : Fs} {blocksCnt n b k : ℕ} {B : Prop} {u v w w' : World} {Q R R' S : Set ℕ}
  {i j inode inode' tmp : Mem}

theorem Grown.refl (hf : Filed fs R w inode) : Grown fs R R w w inode inode :=
  ⟨subset_rfl, hf, Frame.refl _ _ _, Set.subset_union_left, fun _ h => h, fun _ _ => rfl⟩

theorem Grown.trans (h : Grown fs R R' u v inode i) (h' : Grown fs R' Q v w i j) :
    Grown fs R Q u w inode j where
  sub := h'.sub.trans h.sub
  filed := h'.filed
  frame := h.frame.trans (h'.frame.mono (Set.union_subset
    (h.blocks.trans (Set.union_subset_union_right _ Set.sdiff_subset))
    (h.sub.trans Set.subset_union_right)))
  blocks := by
    intro c hc
    rcases h'.blocks hc with hc | hc
    · exact (h.blocks hc).imp id fun hcR => ⟨hcR.1, fun hcQ => hcR.2 (h'.sub hcQ)⟩
    · exact Or.inr ⟨h.sub hc.1, hc.2⟩
  complete m hm := h'.complete m (h.complete m hm)
  rest x hx := (h'.rest x hx).trans (h.rest x hx)

/-- Changing the size or the count of sectors in memory. -/
theorem Grown.sameMap (h : Grown fs R R' w w' inode i) (hsame : SameMap i j)
    (hrest : ∀ x, Kept x → j x = i x) : Grown fs R R' w w' inode j where
  sub := h.sub
  filed := hsame.filed h.filed
  frame := h.frame
  blocks := by
    rw [hsame.fileBlocks]
    exact h.blocks
  complete m hm := (hsame.wayComplete m).mpr (h.complete m hm)
  rest x hx := (hrest x hx).trans (h.rest x hx)

/-- Taking a block, which no file has. -/
theorem grown_alloc (hs : fs.Sized) (hf : Filed fs R w inode)
    (hstock : Stock fs blocksCnt B R (k + 1) w) (halloc : allocBlock fs w = some (b, w'))
    (hne : b ≠ minusOne) :
    b ∈ R ∧ b ≠ 0 ∧ b ∉ fileBlocks fs w' inode ∧ Grown fs R (R \ {b}) w w' inode inode ∧
      Stock fs blocksCnt B (R \ {b}) k w' ∧
      (∀ m, realBlockRead fs w' inode m = realBlockRead fs w inode m) ∧
      ∀ x, fileByte fs w' inode x = fileByte fs w inode x := by
  obtain ⟨hbR, hmeta, hres, -, -, hframe⟩ := hstock.1.alloc halloc hne
  have hmetaR := hstock.1.metadata_subset
  have hdisj : Disjoint {c | Metadata fs w c} (fileBlocks fs w inode) := by
    rw [Set.disjoint_left]
    exact fun c hc hmem => (hf.blocks hmem).2 (hmetaR hc)
  have hdisj' : Disjoint {c | Metadata fs w c} (indirect fs w inode) :=
    hdisj.mono_right Set.subset_union_left
  have hblocks := hframe.fileBlocks hs hf.toMapped hdisj'
  refine ⟨hbR, fun h0 => hmeta (Or.inl h0), fun hmem => (hf.blocks (hblocks ▸ hmem)).2 hbR,
    ⟨Set.sdiff_subset, ?_, ?_, ?_, fun m hm => ?_,
    fun _ _ => rfl⟩, ⟨hres, fun hB => ((hstock.2 hB).alloc halloc hne).2.2.1⟩,
    hframe.realBlockRead hs hf.toMapped hdisj', fun x => hframe.fileByte_of_disjoint hs hf hdisj x⟩
  · exact (hframe.filed hs hf hdisj').mono Set.sdiff_subset
  · exact hframe.mono (hmetaR.trans Set.subset_union_right)
  · rw [hblocks]
    exact Set.subset_union_left
  · exact (hframe.wayComplete hf.toMapped hdisj' m).mpr hm

theorem Stock.write (h : Stock fs blocksCnt B R k w) (hframe : Frame fs S w w')
    (hgd : w'.groupDesc = w.groupDesc) (hS : Disjoint S R) : Stock fs blocksCnt B R k w' :=
  ⟨(h.1.write hframe hgd (hS.mono_right h.1.metadata_subset)).1,
    fun hB => (h.2 hB).write hframe hgd hS⟩

theorem Stock.mono {k' : ℕ} (h : Stock fs blocksCnt B R k w) (hk : k' ≤ k) :
    Stock fs blocksCnt B R k' w :=
  ⟨{ h.1 with left := hk.trans h.1.left }, fun hB => (h.2 hB).mono hk⟩

/-- **Writing a block of the file in place.** -/
theorem put_write (hs : fs.Sized) (hf : Filed fs R w inode) (hb0 : b ≠ 0)
    (hn : realBlockRead fs w inode n = some b) (h : rwBlockWrite fs w b tmp = some w') :
    Put fs blocksCnt B R R w w' inode inode n b tmp := by
  obtain ⟨hframe, hgd, hdisj, hbytes⟩ := hf.write_data hs hb0 hn h
  have hmem : b ∈ dataBlocks fs w inode := ⟨hb0, n, hn⟩
  have hstock : ∀ k, Stock fs blocksCnt B R k w → Stock fs blocksCnt B R k w' := fun k hk =>
    hk.write hframe hgd (Set.disjoint_singleton_left.mpr (hf.data b hmem).2.1)
  refine ⟨subset_rfl, hframe.filed hs hf hdisj, hframe.mono ?_, ?_, fun m hm => ?_, fun _ _ _ => rfl,
    fun k _ => hstock k, fun k _ hk => (hstock _ hk).mono (Nat.le_add_left _ _),
    fun m _ => hframe.realBlockRead hs hf.toMapped hdisj m, hbytes⟩
  · exact Set.singleton_subset_iff.mpr (Or.inl (Or.inl rfl))
  · rw [hframe.fileBlocks hs hf.toMapped hdisj]
    exact fun c hc => Or.inl (Or.inr hc)
  · exact (hframe.wayComplete hf.toMapped hdisj m).mpr hm

/-- **Writing a block and mapping it.** The block is the one that is mapped there, or one that no
file has. -/
theorem put_map (hs : fs.Sized) (hf : Filed fs R w inode) (hb0 : b ≠ 0) (hb32 : b < 2 ^ 32)
    (hb : fs.Addressable b ∧ b ∉ R ∧ b ∉ indirect fs w inode)
    (hfresh : ∀ m, realBlockRead fs w inode m = some b → m = n)
    (hsup : WayComplete fs w inode n ∨ Supply fs blocksCnt R (wayLength fs n) w)
    (hwrite : rwBlockWrite fs w b tmp = some v)
    (hmap : realBlockWrite fs v inode n b = some (true, inode', w')) :
    ∃ R', Put fs blocksCnt B R R' w w' inode inode' n b tmp := by
  have hpos := hs.pos
  obtain ⟨hframe, hgd, -, hself⟩ := frame_rwBlockWrite hs hb.1 hwrite
  have hdisj : Disjoint {b} (indirect fs w inode) := Set.disjoint_singleton_left.mpr hb.2.2
  have hdisjR : Disjoint {b} R := Set.disjoint_singleton_left.mpr hb.2.1
  have hread := hframe.realBlockRead hs hf.toMapped hdisj
  have hway := hframe.wayComplete hf.toMapped hdisj
  have hfv := hframe.filed hs hf hdisj
  obtain ⟨⟨slot, is⟩, hpath⟩ : ∃ path, realBlockPath fs n = some path := by
    unfold realBlockWrite at hmap
    split at hmap
    · exact absurd hmap (by simp)
    · exact ⟨_, by assumption⟩
    · exact ⟨_, by assumption⟩
  have hlen : wayLength fs n = is.length := by rw [wayLength, hpath]; rfl
  have hspec : MapWritten fs blocksCnt R v w' inode inode' is.length n b := by
    refine realBlockWrite_spec hs hb32 hfv.toMapped hpath (hsup.imp (fun hc => ?_) fun hk => ?_) hmap
    · exact (hway n).mpr hc slot is hpath
    · exact hlen ▸ hk.write hframe hgd hdisjR
  have hfresh' : ∀ m, realBlockRead fs v inode m = some b → m = n := fun m hm =>
    hfresh m ((hread m).symm.trans hm)
  have hb' : fs.Addressable b ∧ b ∉ R ∧ b ∉ indirect fs v inode := by
    rw [hframe.indirect hf.toMapped hdisj]
    exact hb
  obtain ⟨hbytes, R', hR', hfiled, hblocks, hsupply, hreserve⟩ := hfv.map hs hb0 hb' hfresh' hspec
  have hstock : ∀ k, Stock fs blocksCnt B R k w → Stock fs blocksCnt B R k v := fun k hk =>
    hk.write hframe hgd hdisjR
  refine ⟨R', hR', hfiled, (hframe.mono ?_).trans (hspec.frame.mono ?_), ?_,
    fun m hm => hspec.complete m ((hway m).mpr hm), hspec.rest, fun k hc hk => ?_, fun k hB hk => ?_,
    fun m hm => ?_, fun x => ?_⟩
  · exact Set.singleton_subset_iff.mpr (Or.inl (Or.inl rfl))
  · rw [hframe.indirect hf.toMapped hdisj]
    exact Set.union_subset_union_left _ fun c hc => Or.inr (Or.inl hc)
  · rw [hframe.fileBlocks hs hf.toMapped hdisj] at hblocks
    exact hblocks
  · have hcv := hreserve k ((hway n).mpr hc)
    exact ⟨hcv.1 (hstock k hk).1, fun hB => hcv.2 ((hstock k hk).2 hB)⟩
  · have hsv := hsupply k (hlen ▸ (hstock _ hk).2 hB)
    exact ⟨hsv.toReserve, fun _ => hsv⟩
  · rw [hspec.other m hm, hread]
  · rw [hbytes]
    split
    · exact hself _ (Nat.mod_lt _ (by omega))
    · rename_i hx
      apply hframe.fileByte hs hf hdisj
      rintro c hc - rfl
      exact hx (hfresh _ hc)

/-- A block of the file that is put does not make the file grow by itself. -/
theorem Put.grown (h : Put fs blocksCnt B R R' w w' inode inode' n b tmp)
    (hb : b ∈ fileBlocks fs w inode) : Grown fs R R' w w' inode inode' := by
  have hins : insert b (fileBlocks fs w inode) = fileBlocks fs w inode := Set.insert_eq_of_mem hb
  exact ⟨h.sub, h.filed, hins ▸ h.frame, hins ▸ h.blocks, h.complete,
    fun x hx => h.rest x hx.2.1 hx.2.2⟩

/-- A block from the reserve that is taken and put makes the file grow. -/
theorem Grown.put (h : Grown fs R (R \ {b}) w v inode inode) (hb : b ∈ R)
    (hput : Put fs blocksCnt B (R \ {b}) R' v w' inode inode' n b tmp) :
    Grown fs R R' w w' inode inode' := by
  have hv : fileBlocks fs v inode ⊆ fileBlocks fs w inode ∪ R :=
    h.blocks.trans (Set.union_subset_union_right _ Set.sdiff_subset)
  refine ⟨hput.sub.trans Set.sdiff_subset, hput.filed, h.frame.trans (hput.frame.mono ?_), ?_,
    fun m hm => hput.complete m (h.complete m hm), fun x hx => hput.rest x hx.2.1 hx.2.2⟩
  · rintro c ((rfl | hc) | hc)
    · exact Or.inr hb
    · exact hv hc
    · exact Or.inr hc.1
  · intro c hc
    have hout : b ∉ R' := fun hbR => (hput.sub hbR).2 rfl
    rcases hput.blocks hc with (rfl | hc) | hc
    · exact Or.inr ⟨hb, hout⟩
    · rcases h.blocks hc with hc | hc
      · exact Or.inl hc
      · exact Or.inr ⟨hc.1, fun hcR => hc.2 (hput.sub hcR)⟩
    · exact Or.inr ⟨hc.1.1, hc.2⟩

end

end Shaunos.Ext2
