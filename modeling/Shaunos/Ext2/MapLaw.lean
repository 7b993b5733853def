import Mathlib.Tactic.IntervalCases
import Shaunos.Ext2.BlockMap

/-!
# When writing the block map leaves other blocks alone

Reference: `Kernel/ext2.c` (`ext2_inode_rw_real_block`).

`MapLaw` is what a write of the map is for: the block is found afterwards, and every other block is
found where it was. An indirect block that is allocated on the way is not cleared, so the law depends
on what free blocks hold. `MapLaw` holds whatever they hold when no indirect block is missing on the
way, and then only: if one is missing, free blocks that hold their own number as every entry break
it.

* `mapLaw_iff` — the two directions;
* `mapLaw_can_fail` — a file that gets a second block it never wrote.
-/

namespace Shaunos.Ext2

/-- After `n` is mapped to `v` it is found there, and every other block is found where it was. -/
def MapLaw (fs : Fs) (w : World) (inode : Mem) (n v : ℕ) : Prop :=
  ∀ inode' w', realBlockWrite fs w inode n v = some (true, inode', w') →
    realBlockRead fs w' inode' n = some v ∧
      ∀ m, m ≠ n → realBlockRead fs w' inode' m = realBlockRead fs w inode m

/-- The free blocks of the volume. -/
def freeBlocks (fs : Fs) (blocksCnt : ℕ) (w : World) : Set ℕ :=
  {b | b < blocksCnt ∧ homeBit fs w b = false}

/-- The same volume, but for what its free blocks hold. -/
def SameButFree (fs : Fs) (blocksCnt : ℕ) (w w' : World) : Prop :=
  Frame fs (freeBlocks fs blocksCnt w) w w' ∧ w'.groupDesc = w.groupDesc

/-- Every transfer of a block or of the descriptors succeeds. -/
structure Healthy (fs : Fs) (w : World) : Prop where
  read : ∀ s, w.badRead s = false
  write : ∀ s, w.badWrite s = false
  blksize : fs.blksize ≤ 65536
  table : fs.blockGroupDescTableSize / 512 ≤ 128

section

variable {fs : Fs} {blocksCnt n v b p : ℕ} {w w' : World} {R S : Set ℕ} {is : List ℕ}
  {inode inode' buf tmpBuf : Mem}

/-! ## Transfers on a healthy device -/

theorem Healthy.rwBlockRead (h : Healthy fs w) (b : ℕ) (buf : Mem) :
    ∃ m, rwBlockRead fs w b buf = some m := by
  have hsize := h.blksize
  unfold Ext2.rwBlockRead blockRead
  simp only [h.read]
  rw [if_neg (by simp; omega)]
  exact ⟨_, rfl⟩

theorem Healthy.rwBlockWrite (h : Healthy fs w) (b : ℕ) (buf : Mem) :
    ∃ w', rwBlockWrite fs w b buf = some w' := by
  have hsize := h.blksize
  unfold Ext2.rwBlockWrite blockWrite
  simp only [h.write]
  rw [if_neg (by simp; omega)]
  exact ⟨_, rfl⟩

theorem Healthy.writeGroupDesc (h : Healthy fs w) : ∃ w', writeGroupDesc fs w = some w' := by
  have htable := h.table
  unfold Ext2.writeGroupDesc blockWrite
  simp only [h.write]
  rw [if_neg (by simp; omega)]
  exact ⟨_, rfl⟩

theorem Healthy.frame (h : Healthy fs w) (hframe : Frame fs S w w') : Healthy fs w' :=
  ⟨by rw [hframe.badRead]; exact h.read, by rw [hframe.badWrite]; exact h.write, h.blksize, h.table⟩

/-- On a healthy device a reserve serves. -/
theorem Healthy.allocBlock (h : Healthy fs w) (hr : Reserve fs blocksCnt R (n + 1) w) :
    ∃ b w', allocBlock fs w = some (b, w') ∧ b ≠ minusOne := by
  have hpos : 0 < freeTotal fs .block w := lt_of_lt_of_le (Nat.succ_pos n) hr.left
  obtain ⟨g₀, hg₀, hpos₀⟩ := exists_of_freeTotal_pos hpos
  have hsome : (groupWithFree fs .block w).isSome = true := by
    rw [groupWithFree, List.find?_isSome]
    exact ⟨g₀, List.mem_range.mpr hg₀, by simpa using hpos₀⟩
  obtain ⟨g, hgroup⟩ := Option.isSome_iff_exists.mp hsome
  obtain ⟨hg, hposg⟩ := groupWithFree_eq_some hgroup
  have hz : 0 < zeros fs w .block g := lt_of_lt_of_le hposg (hr.inv.nums g hg)
  obtain ⟨r, w', htake⟩ := takeBit_returns hr.numbers.sized hz
  -- none of the transfers fails
  have hr' : ∃ j, r = some j := by
    have h₁ := htake
    unfold takeBit at h₁
    simp only at h₁
    obtain ⟨m, hm⟩ := h.rwBlockRead (bitmapBlock .block w.groupDesc g) w.junk
    rw [hm] at h₁
    obtain ⟨j, -, h₁⟩ := Option.bind_eq_some_iff.mp h₁
    have hh : Healthy fs (w.countDown .block g) := h.frame (frame_setNums ∅ w .block g _ _)
    obtain ⟨w₁, hw₁⟩ := hh.rwBlockWrite (bitmapBlock .block w.groupDesc g) (m.setBit j)
    have hh₁ : Healthy fs w₁ := by
      have heq := blockWrite_eq_some hw₁
      rw [heq]
      exact ⟨hh.read, hh.write, hh.blksize, hh.table⟩
    obtain ⟨w₂, hw₂⟩ := hh₁.writeGroupDesc
    simp only [hw₁, hw₂] at h₁
    exact ⟨j, (Prod.mk.inj (Option.some.inj h₁)).1.symm⟩
  obtain ⟨j, rfl⟩ := hr'
  refine ⟨_, w', by simp only [Ext2.allocBlock, hgroup, htake]; rfl, ?_⟩
  have hplaced : Placed fs w := hr.inv.placed
  obtain ⟨-, ⟨hnone, -⟩ | ⟨j', hj, hzero, -, -, ⟨hnone, -⟩ | ⟨hjj, -⟩⟩⟩ :=
    takeBit_spec hplaced hg htake
  · exact absurd hnone (by simp)
  · exact absurd hnone (by simp)
  obtain ⟨heq, -⟩ : some j = some j' ∧ _ := by simpa using hjj
  obtain rfl := Option.some.inj heq
  have hlt := (hr.inv.clear g hg j hj hzero).2
  have hbc := hr.numbers.blocksCnt_lt
  rw [Nat.mul_comm] at hlt
  rw [Nat.mod_eq_of_lt (by omega)]
  unfold minusOne
  omega

/-! ## Blocks that name themselves -/

/-- Every entry of the block is the number of the block. -/
def OwnNumber (fs : Fs) (w : World) (b : ℕ) : Prop :=
  ∀ i < fs.entries, (w.block fs b).get32 (4 * i) = b

theorem Frame.ownNumber (h : Frame fs S w w') (hb : fs.Addressable b) (hbS : b ∉ S)
    (hown : OwnNumber fs w b) : OwnNumber fs w' b := by
  intro i hi
  refine Eq.trans ?_ (hown i hi)
  apply Mem.readLE_congr
  intro x _ hx
  unfold Fs.entries at hi
  exact h.block b hb hbS x (by omega)

/-- Writing below such a block stays in it: the last index is given the value. -/
theorem walkWrite_ownNumber (hh : Healthy fs w) (hs : fs.Sized)
    (hb : fs.Addressable b) (hb0 : b ≠ 0) (hown : OwnNumber fs w b) (hne : is ≠ [])
    (his : ∀ i ∈ is, i < fs.entries) :
    ∃ w', walkWrite fs v is b tmpBuf inode w = some (true, inode, w') ∧ Frame fs {b} w w' ∧
      ∀ k < fs.entries, k ≠ is.getLast hne → ∃ e, blockEntries fs w' b = some e ∧ e k = b := by
  induction is generalizing tmpBuf with
  | nil => exact absurd rfl hne
  | cons i is ih =>
      obtain ⟨m, hm⟩ := hh.rwBlockRead b tmpBuf
      have hi : i < fs.entries := his i List.mem_cons_self
      have hget : ∀ k < fs.entries, m.get32 (4 * k) = b := by
        intro k hk
        refine Eq.trans ?_ (hown k hk)
        apply Mem.readLE_congr
        intro x _ hx
        unfold Fs.entries at hk
        exact rwBlockRead_eq_some hs hm x (by omega)
      rw [walkWrite, hm]
      simp only
      by_cases hnil : is = []
      · subst hnil
        obtain ⟨w', hw'⟩ := hh.rwBlockWrite b (m.set32 (4 * i) v)
        obtain ⟨hframe, -, -, hself⟩ := frame_rwBlockWrite hs hb hw'
        rw [if_pos rfl, hw']
        refine ⟨w', rfl, hframe, fun k hk hki => ⟨_, blockEntries_write hi hm hframe.badRead hself, ?_⟩⟩
        rw [Function.update_of_ne (by simpa using hki), if_pos hk, hget k hk]
      · rw [if_neg hnil, if_neg (by rw [hget i hi]; exact hb0), hget i hi,
          List.getLast_cons hnil]
        exact ih hnil fun j hj => his j (List.mem_cons_of_mem i hj)

theorem walk_replicate {E : PtrTree.Store} {e : ℕ → ℕ} {k : ℕ} (hb0 : b ≠ 0) (he : E b = some e)
    (hk : e k = b) (d : ℕ) : PtrTree.walk E b (List.replicate d k) = some b := by
  induction d with
  | zero => rfl
  | succ d ih => rw [List.replicate_succ, PtrTree.walk_cons_of_ne hb0 he, hk, ih]

/-- There is another index. -/
theorem exists_index_ne (hs : fs.Sized) (i : ℕ) : ∃ k < fs.entries, k ≠ i := by
  have hpos := hs.pos
  unfold Fs.entries
  by_cases hi : i = 0
  · exact ⟨1, by omega, by omega⟩
  · exact ⟨0, by omega, Ne.symm hi⟩

/-- A new block that names itself: after the write below it, some way that led nowhere leads to it. -/
theorem walkWrite_fresh_ownNumber (hh : Healthy fs w) (hs : fs.Sized)
    (hb : fs.Addressable b) (hb0 : b ≠ 0) (hown : OwnNumber fs w b) (hne : is ≠ [])
    (his : ∀ i ∈ is, i < fs.entries) :
    ∃ w' js, walkWrite fs v is b tmpBuf inode w = some (true, inode, w') ∧ Frame fs {b} w w' ∧
      js.length = is.length ∧ js ≠ is ∧ (∀ j ∈ js, j < fs.entries) ∧
      PtrTree.walk (blockEntries fs w') b js = some b := by
  obtain ⟨k, hk, hkne⟩ := exists_index_ne hs (is.getLast hne)
  obtain ⟨w', hwrite, hframe, hentries⟩ :=
    @walkWrite_ownNumber _ _ _ _ _ inode tmpBuf hh hs hb hb0 hown hne his
  obtain ⟨e, he, hek⟩ := hentries k hk hkne
  refine ⟨w', List.replicate is.length k, hwrite, hframe, List.length_replicate, fun heq => hkne ?_,
    fun j hj => ?_, walk_replicate hb0 he hek _⟩
  · exact (List.eq_replicate_iff.mp heq.symm).2 _ (List.getLast_mem hne) |>.symm
  · exact (List.eq_of_mem_replicate hj) ▸ hk

/-- **A missing block on the way.** When free blocks name themselves, the write succeeds, and some
way that led nowhere leads to a block. -/
theorem walkWrite_spoils (hh : Healthy fs w) (hr : Reserve fs blocksCnt R 1 w)
    (hown : ∀ b ∈ freeBlocks fs blocksCnt w, OwnNumber fs w b) (his : ∀ i ∈ is, i < fs.entries)
    (hp : p ≠ 0) (hsep : PtrTree.Separate (blockEntries fs w) is.length p)
    (hnodes : ∀ b ∈ PtrTree.nodes (blockEntries fs w) is.length p, fs.Addressable b ∧ b ∉ R)
    (hc : ¬ PtrTree.Complete (blockEntries fs w) p is) :
    ∃ inode' w' js, walkWrite fs v is p tmpBuf inode w = some (true, inode', w') ∧
      Frame fs (PtrTree.nodes (blockEntries fs w) is.length p ∪ R) w w' ∧
      (∀ x, x < 28 ∨ 32 ≤ x → inode' x = inode x) ∧
      js.length = is.length ∧ js ≠ is ∧ (∀ j ∈ js, j < fs.entries) ∧
      PtrTree.walk (blockEntries fs w) p js = some 0 ∧
      ∃ b ≠ 0, PtrTree.walk (blockEntries fs w') p js = some b := by
  have hs := hr.numbers.sized
  induction is generalizing p tmpBuf inode with
  | nil => exact absurd trivial hc
  | cons i is ih =>
      have hi : i < fs.entries := his i List.mem_cons_self
      have his' : ∀ j ∈ is, j < fs.entries := fun j hj => his j (List.mem_cons_of_mem i hj)
      obtain ⟨m, hread⟩ := hh.rwBlockRead p tmpBuf
      have he := blockEntries_of_read hs hread
      set e : ℕ → ℕ := fun j => if j < fs.entries then m.get32 (4 * j) else 0 with hedef
      have hei : e i = m.get32 (4 * i) := if_pos hi
      have hci : ¬ PtrTree.Complete (blockEntries fs w) (e i) is := fun hci => hc ⟨hp, fun e' he' => by
        rw [he] at he'
        obtain rfl := Option.some.inj he'
        exact hci⟩
      have hcons : is ≠ [] := by
        rintro rfl
        exact hci trivial
      rw [List.length_cons] at hsep hnodes
      obtain ⟨hroot, -, hsepc⟩ := hsep hp e he
      have hrootR := hnodes p (PtrTree.root_mem_nodes _ _ hp)
      rw [walkWrite, hread]
      simp only
      rw [if_neg hcons, ← hei]
      by_cases hz : e i = 0
      · -- the new block is not empty
        obtain ⟨rb, w₁, halloc, hrb⟩ := hh.allocBlock hr
        obtain ⟨hrbR, hmeta, -, hfree, -, hframe₁⟩ := hr.alloc halloc hrb
        have hrb0 : rb ≠ 0 := fun h0 => hmeta (Or.inl h0)
        have hrbaddr := hr.addressable hrbR
        have hprb : rb ≠ p := fun heq => hrootR.2 (heq ▸ hrbR)
        have hh₁ := hh.frame hframe₁
        obtain ⟨w₂, hwrite⟩ := hh₁.rwBlockWrite p (m.set32 (4 * i) rb)
        obtain ⟨hframe₂, -, -, hself⟩ := frame_rwBlockWrite hs hrootR.1 hwrite
        have he₂ : blockEntries fs w₂ p = some (Function.update e i rb) := by
          have := blockEntries_write hi hread (hframe₂.badRead.trans hframe₁.badRead) hself
          rwa [hr.mod_eq hrbR] at this
        have hown₂ : OwnNumber fs w₂ rb :=
          hframe₂.ownNumber hrbaddr hprb
            (hframe₁.ownNumber hrbaddr hmeta (hown rb ⟨hr.inside rb hrbR, hfree⟩))
        obtain ⟨w', js, hwalk, hframe₃, hlen, hjs, hjlt, hval⟩ :=
          @walkWrite_fresh_ownNumber _ v _ _ _ (addSectors fs inode) (m.set32 (4 * i) rb)
            (hh₁.frame hframe₂) hs hrbaddr hrb0 hown₂ hcons his'
        refine ⟨addSectors fs inode, w', i :: js, ?_, ?_, fun x hx => addSectors_apply hx,
          by simp [hlen], fun heq => hjs (List.cons.inj heq).2, fun j hj => ?_, ?_, rb, hrb0, ?_⟩
        · rw [if_pos hz, halloc]
          simp only [Option.bind_eq_bind, Option.bind_some, hrb, if_false, hwrite]
          exact hwalk
        · refine (hframe₁.mono (hr.metadata_subset.trans Set.subset_union_right)).trans
            ((hframe₂.mono ?_).trans (hframe₃.mono ?_))
          · exact Set.singleton_subset_iff.mpr (Or.inl (PtrTree.root_mem_nodes _ _ hp))
          · exact Set.singleton_subset_iff.mpr (Or.inr hrbR)
        · rcases List.mem_cons.mp hj with rfl | hj
          · exact hi
          · exact hjlt j hj
        · rw [PtrTree.walk_cons_of_ne hp he, hz, PtrTree.walk_zero]
        · have he' : blockEntries fs w' p = some (Function.update e i rb) := by
            rw [hframe₃.blockEntries hrootR.1 (Ne.symm hprb), he₂]
          rw [PtrTree.walk_cons_of_ne hp he', Function.update_self, hval]
      · obtain ⟨inode', w', js, hwalk, hframe, hinode, hlen, hjs, hjlt, hold, b, hb0, hnew⟩ :=
          @ih _ inode m his' hz (hsepc i)
            (fun b hb => hnodes b (PtrTree.nodes_child_subset hp he i hb)) hci
        refine ⟨inode', w', i :: js, by rw [if_neg hz]; exact hwalk, ?_, hinode, by simp [hlen],
          fun heq => hjs (List.cons.inj heq).2, fun j hj => ?_, ?_, b, hb0, ?_⟩
        · exact hframe.mono (Set.union_subset_union_left _ (PtrTree.nodes_child_subset hp he i))
        · rcases List.mem_cons.mp hj with rfl | hj
          · exact hi
          · exact hjlt j hj
        · rw [PtrTree.walk_cons_of_ne hp he, hold]
        · have he' : blockEntries fs w' p = some e := by
            rw [hframe.blockEntries hrootR.1 fun hmem => hmem.elim (hroot i) hrootR.2, he]
          rw [PtrTree.walk_cons_of_ne hp he', hnew]

/-- The ends of the ranges do not wrap around, or the range is empty. -/
theorem entries_bounds (hs : fs.Sized) (hsize : fs.blksize ≤ 65536) :
    256 ≤ fs.entries ∧ fs.entries ≤ 16384 ∧ fs.entries * fs.entries ≤ 2 ^ 28 ∧
      (fs.entries * fs.entries * fs.entries % 2 ^ 32 = 0 ∨
        fs.entries * fs.entries * fs.entries ≤ 2 ^ 30) := by
  obtain ⟨k, -, hk⟩ := hs
  have hk6 : k ≤ 6 := by
    by_contra hlt
    have hpow : 2 ^ 7 ≤ 2 ^ k := Nat.pow_le_pow_right (by omega) (by omega)
    omega
  unfold Fs.entries
  rw [hk]
  interval_cases k <;> norm_num

/-- Every way of the right length is the way to a logical block, when one is. -/
theorem realBlockPath_blockAt (hs : fs.Sized) (hsize : fs.blksize ≤ 65536) {slot : ℕ}
    (hpath : realBlockPath fs n = some (slot, is)) {js : List ℕ} (hlen : js.length = is.length)
    (hne : is ≠ []) (hjs : ∀ j ∈ js, j < fs.entries) :
    realBlockPath fs (blockAt fs slot js) = some (slot, js) := by
  obtain ⟨hlow, hhigh, hsq, hcube⟩ := entries_bounds hs hsize
  have hn₂ : fs.entries * fs.entries % 2 ^ 32 = fs.entries * fs.entries :=
    Nat.mod_eq_of_lt (by omega)
  have hn₁ : (12 + fs.entries) % 2 ^ 32 = 12 + fs.entries := Nat.mod_eq_of_lt (by omega)
  have hd : (12 + fs.entries + fs.entries * fs.entries) % 2 ^ 32
      = 12 + fs.entries + fs.entries * fs.entries := Nat.mod_eq_of_lt (by omega)
  unfold realBlockPath at hpath
  simp only [hn₁, hn₂, hd] at hpath
  split at hpath
  · obtain ⟨-, rfl⟩ := Prod.mk.inj (Option.some.inj hpath)
    exact absurd rfl hne
  split at hpath
  · obtain ⟨rfl, rfl⟩ := Prod.mk.inj (Option.some.inj hpath)
    obtain ⟨j, rfl⟩ := List.length_eq_one_iff.mp hlen
    have hj := hjs j List.mem_cons_self
    simp only [realBlockPath, blockAt, hn₁]
    rw [if_neg (by omega), if_pos (by omega), Nat.add_sub_cancel_left]
  split at hpath
  · obtain ⟨rfl, rfl⟩ := Prod.mk.inj (Option.some.inj hpath)
    obtain ⟨i, j, rfl⟩ := List.length_eq_two.mp hlen
    have hi := hjs i (by simp)
    have hj := hjs j (by simp)
    have hlt : fs.entries * i + j < fs.entries * fs.entries := by
      have := Nat.mul_le_mul_left fs.entries (show i + 1 ≤ fs.entries from hi)
      rw [Nat.mul_succ] at this
      omega
    simp only [realBlockPath, blockAt, hn₁, hn₂, hd]
    rw [if_neg (by omega), if_neg (by omega), if_pos (by omega), Nat.add_sub_cancel_left,
      Nat.mul_add_div (by omega), Nat.div_eq_of_lt hj, Nat.mul_add_mod, Nat.mod_eq_of_lt hj,
      Nat.add_zero]
  split at hpath
  · rename_i hlo hhi
    obtain ⟨rfl, rfl⟩ := Prod.mk.inj (Option.some.inj hpath)
    obtain ⟨i, j, k, rfl⟩ := List.length_eq_three.mp hlen
    have hi := hjs i (by simp)
    have hj := hjs j (by simp)
    have hk := hjs k (by simp)
    -- the range is not empty
    rcases hcube with hcube | hcube
    · rw [hcube, Nat.add_zero, hd] at hhi
      exact absurd hhi hlo
    have hn₃ : fs.entries * fs.entries * fs.entries % 2 ^ 32
        = fs.entries * fs.entries * fs.entries := Nat.mod_eq_of_lt (by omega)
    have ht : (12 + fs.entries + fs.entries * fs.entries + fs.entries * fs.entries * fs.entries)
        % 2 ^ 32
        = 12 + fs.entries + fs.entries * fs.entries + fs.entries * fs.entries * fs.entries :=
      Nat.mod_eq_of_lt (by omega)
    have hlt : fs.entries * j + k < fs.entries * fs.entries := by
      have := Nat.mul_le_mul_left fs.entries (show j + 1 ≤ fs.entries from hj)
      rw [Nat.mul_succ] at this
      omega
    have hlt₃ : fs.entries * fs.entries * i + (fs.entries * j + k)
        < fs.entries * fs.entries * fs.entries := by
      have := Nat.mul_le_mul_left (fs.entries * fs.entries) (show i + 1 ≤ fs.entries from hi)
      rw [Nat.mul_succ] at this
      omega
    simp only [realBlockPath, blockAt, hn₁, hn₂, hd, hn₃, ht]
    rw [if_neg (by omega), if_neg (by omega), if_neg (by omega), if_pos (by omega),
      Nat.add_sub_cancel_left, Nat.mul_add_div (by omega), Nat.div_eq_of_lt hlt, Nat.mul_add_mod,
      Nat.mod_eq_of_lt hlt, Nat.mul_add_div (by omega), Nat.div_eq_of_lt hk, Nat.mul_add_mod,
      Nat.mod_eq_of_lt hk, Nat.add_zero, Nat.add_zero]
  · exact absurd hpath (by simp)

/-- The law fails when a block is missing on the way and free blocks name themselves. -/
theorem not_mapLaw_of_ownNumber (hh : Healthy fs w) (hr : Reserve fs blocksCnt R 1 w)
    (hown : ∀ b ∈ freeBlocks fs blocksCnt w, OwnNumber fs w b) (hm : Mapped fs R w inode) {slot : ℕ}
    (hpath : realBlockPath fs n = some (slot, is))
    (hc : ¬ PtrTree.Complete (blockEntries fs w) (iBlock inode slot) is) :
    ¬ MapLaw fs w inode n v := by
  have hs := hr.numbers.sized
  obtain ⟨hslot, hlen, his⟩ := realBlockPath_eq_some hpath
  have hne : is ≠ [] := by
    rintro rfl
    exact hc trivial
  -- a write that succeeds, and a way that changes
  have hspoil : ∃ inode' w' js, realBlockWrite fs w inode n v = some (true, inode', w') ∧
      js.length = is.length ∧ js ≠ is ∧ (∀ j ∈ js, j < fs.entries) ∧
      PtrTree.walk (blockEntries fs w) (iBlock inode slot) js = some 0 ∧
      ∃ b ≠ 0, PtrTree.walk (blockEntries fs w') (iBlock inode' slot) js = some b := by
    have hcall : realBlockWrite fs w inode n v = if iBlock inode slot = 0 then
          (allocBlock fs w).bind fun r =>
            if r.1 = minusOne then none
            else walkWrite fs v is r.1 r.2.junk (addSectors fs (setIBlock inode slot r.1)) r.2
        else walkWrite fs v is (iBlock inode slot) w.junk inode w := by
      rw [realBlockWrite, hpath]
      cases is with
      | nil => exact absurd rfl hne
      | cons i is => rfl
    rw [hcall]
    by_cases hz : iBlock inode slot = 0
    · obtain ⟨rb, w₁, halloc, hrb⟩ := hh.allocBlock hr
      obtain ⟨hrbR, hmeta, -, hfree, -, hframe₁⟩ := hr.alloc halloc hrb
      have hrb0 : rb ≠ 0 := fun h0 => hmeta (Or.inl h0)
      have hown₁ : OwnNumber fs w₁ rb := hframe₁.ownNumber (hr.addressable hrbR) hmeta
        (hown rb ⟨hr.inside rb hrbR, hfree⟩)
      obtain ⟨w', js, hwalk, -, hjlen, hjs, hjlt, hval⟩ :=
        @walkWrite_fresh_ownNumber _ v _ _ _ (addSectors fs (setIBlock inode slot rb)) w₁.junk
          (hh.frame hframe₁) hs
          (hr.addressable hrbR) hrb0 hown₁ hne his
      refine ⟨addSectors fs (setIBlock inode slot rb), w', js, ?_, hjlen, hjs, hjlt,
        by rw [hz, PtrTree.walk_zero], rb, hrb0, ?_⟩
      · rw [if_pos hz, halloc]
        simp only [Option.bind_some, hrb, if_false]
        exact hwalk
      · rw [iBlock_congr (m := setIBlock inode slot rb) fun x hx => addSectors_apply hx,
          iBlock_setIBlock, if_pos rfl, hr.mod_eq hrbR, hval]
    · obtain ⟨inode', w', js, hwalk, -, hinode, hjlen, hjs, hjlt, hold, b, hb0, hnew⟩ :=
        @walkWrite_spoils _ _ v _ _ _ _ inode w.junk hh hr hown his hz
          (hlen ▸ hm.separate slot hslot) (fun b hb => hm.outside b ⟨slot, hslot, hlen ▸ hb⟩) hc
      refine ⟨inode', w', js, by rw [if_neg hz]; exact hwalk, hjlen, hjs, hjlt, hold, b, hb0, ?_⟩
      rw [iBlock_congr hinode, hnew]
  obtain ⟨inode', w', js, hwrite, hjlen, hjs, hjlt, hold, b, hb0, hnew⟩ := hspoil
  have hpath' := realBlockPath_blockAt hs hh.blksize hpath hjlen hne hjlt
  intro hlaw
  have hother := (hlaw inode' w' hwrite).2 (blockAt fs slot js) fun heq => hjs (by
    rw [heq, hpath] at hpath'
    exact (Prod.mk.inj (Option.some.inj hpath')).2.symm)
  rw [realBlockRead_eq hs hpath', realBlockRead_eq hs hpath', hold, hnew] at hother
  exact hb0 (Option.some.inj hother)

/-! ## Other bytes in free blocks -/

/-- The volume with the number of the block as every entry of a free block. -/
def ownNumbers (fs : Fs) (blocksCnt : ℕ) (w : World) : World :=
  { w with
    disk := fun x =>
      if x / fs.blksize < blocksCnt ∧ homeBit fs w (x / fs.blksize) = false then
        BitVec.ofNat 8 (x / fs.blksize / 256 ^ (x % 4))
      else w.disk x }

theorem block_ownNumbers (hs : fs.Sized) (hb : fs.Addressable b) {x : ℕ} (hx : x < fs.blksize) :
    (ownNumbers fs blocksCnt w).block fs b x =
      if b < blocksCnt ∧ homeBit fs w b = false then BitVec.ofNat 8 (b / 256 ^ (x % 4))
      else w.block fs b x := by
  have hdiv : (b * fs.blksize + x) / fs.blksize = b := by
    rw [Nat.mul_comm, Nat.mul_add_div (by omega), Nat.div_eq_of_lt hx, Nat.add_zero]
  have hmod : (b * fs.blksize + x) % 4 = x % 4 := by
    obtain ⟨k, -, hk⟩ := hs
    rw [hk, show b * (1024 * 2 ^ k) = 4 * (b * 256 * 2 ^ k) by ring, Nat.mul_add_mod]
  unfold World.block ownNumbers
  simp only [hs.sector_eq hb, hdiv, hmod]

theorem ownNumbers_ownNumber (hs : fs.Sized) (hb : fs.Addressable b)
    (hfree : b ∈ freeBlocks fs blocksCnt w) : OwnNumber fs (ownNumbers fs blocksCnt w) b := by
  intro i hi
  have hb32 : b < 2 ^ 32 := by
    have hpos := hs.pos
    have hle : b * 1 ≤ b * fs.blksize := Nat.mul_le_mul_left b (by omega)
    unfold Fs.Addressable at hb
    omega
  have hget : ((ownNumbers fs blocksCnt w).block fs b).get32 (4 * i)
      = (Mem.zero.set32 0 b).get32 0 := by
    apply Mem.readLE_shift
    intro x hx
    unfold Fs.entries at hi
    rw [block_ownNumbers hs hb (by omega), if_pos ⟨hfree.1, hfree.2⟩, Nat.zero_add, Mem.set32, Mem.writeLE,
      if_pos (by omega), Nat.mul_add_mod, Nat.mod_eq_of_lt hx, Nat.sub_zero]
  rw [hget, Mem.get32_set32_self, Nat.mod_eq_of_lt hb32]

theorem sameButFree_ownNumbers (hs : fs.Sized) :
    SameButFree fs blocksCnt w (ownNumbers fs blocksCnt w) := by
  refine ⟨⟨fun _ _ => rfl, fun _ => rfl, rfl, rfl, rfl, rfl, fun b hb hfree x hx => ?_⟩, rfl⟩
  rw [block_ownNumbers hs hb hx, if_neg fun h => hfree ⟨h.1, h.2⟩]

/-- Free blocks are not metadata. -/
theorem Reserve.disjoint_metadata (hr : Reserve fs blocksCnt R n w) :
    Disjoint (freeBlocks fs blocksCnt w) {b | Metadata fs w b} := by
  rw [Set.disjoint_left]
  intro b hb hmeta
  rw [freeBlocks, Set.mem_ofPred_eq, (hr.metadata b hmeta).2] at hb
  exact absurd hb.2 (by simp)

/-- The indirect blocks of an inode are not free. -/
theorem Reserve.disjoint_indirect (hr : Reserve fs blocksCnt R n w) (hm : Mapped fs R w inode) :
    Disjoint (freeBlocks fs blocksCnt w) (indirect fs w inode) := by
  rw [Set.disjoint_left]
  intro b hb hmem
  exact (hm.outside b hmem).2 (hr.free b hb.1 hb.2)

/-! ## Main results -/

/-- **When a write of the map leaves the other blocks alone.** It does so on every inode whose
indirect blocks are a forest, if no indirect block is missing on the way, or if the missing ones come
from a supply of empty blocks. Whatever free blocks hold, it does so exactly in the first case. -/
theorem mapLaw_iff (hs : fs.Sized) (hv : v < 2 ^ 32) (hm : Mapped fs R w inode) {slot : ℕ}
    (hpath : realBlockPath fs n = some (slot, is)) :
    (WayComplete fs w inode n ∨ Supply fs blocksCnt R is.length w → MapLaw fs w inode n v) ∧
    (Reserve fs blocksCnt R 1 w → Healthy fs w →
      ((∀ w₁, SameButFree fs blocksCnt w w₁ → MapLaw fs w₁ inode n v) ↔
        WayComplete fs w inode n)) := by
  have hlaw : ∀ w, Mapped fs R w inode →
      WayComplete fs w inode n ∨ Supply fs blocksCnt R is.length w → MapLaw fs w inode n v := by
    intro w hm hsup inode' w' hwrite
    have hspec := realBlockWrite_spec hs hv hm hpath (hsup.imp_left fun hc => hc slot is hpath) hwrite
    exact ⟨hspec.value, hspec.other⟩
  refine ⟨hlaw w hm, fun hr hh => ⟨fun hall => ?_, fun hc w₁ hsame => ?_⟩⟩
  · by_contra hc
    have hsame := @sameButFree_ownNumbers _ blocksCnt w hs
    have hdisj := hr.disjoint_indirect hm
    obtain ⟨hr', hhome⟩ := hr.write hsame.1 hsame.2 hr.disjoint_metadata
    refine not_mapLaw_of_ownNumber (hh.frame hsame.1) hr' (fun b hb => ?_)
      (hsame.1.mapped hm hdisj) hpath (fun hc' => hc ?_) (hall _ hsame)
    · have hb' : b ∈ freeBlocks fs blocksCnt w := ⟨hb.1, by rw [← hhome b hb.1]; exact hb.2⟩
      exact ownNumbers_ownNumber hs (hr.numbers.addressable hb.1) hb'
    · rw [← hsame.1.wayComplete hm hdisj]
      intro slot' is' hpath'
      rw [hpath] at hpath'
      obtain ⟨rfl, rfl⟩ := Prod.mk.inj (Option.some.inj hpath')
      exact hc'
  · have hdisj := hr.disjoint_indirect hm
    exact hlaw w₁ (hsame.1.mapped hm hdisj) (Or.inl ((hsame.1.wayComplete hm hdisj n).mpr hc))

end

/-! ## An empty file on a volume with one free block -/

/-- An inode of a regular file without blocks. -/
def emptyInode : Mem := (Mem.zero.set16 0 0x81A4).set16 26 1

theorem iBlock_emptyInode (s : ℕ) : iBlock emptyInode s = 0 := by
  unfold iBlock emptyInode
  rw [Mem.get32_set16_of_disjoint (by omega), Mem.get32_set16_of_disjoint (by omega)]
  rfl

theorem mapped_emptyInode (fs : Fs) (R : Set ℕ) (w : World) : Mapped fs R w emptyInode := by
  refine ⟨fun s _ => ?_, fun s _ t _ _ => ?_, ?_⟩
  · rw [iBlock_emptyInode]
    exact PtrTree.separate_zero _ _
  · rw [iBlock_emptyInode, PtrTree.nodes_zero]
    exact Set.empty_disjoint _
  · rintro b ⟨s, -, hb⟩
    rw [iBlock_emptyInode, PtrTree.nodes_zero] at hb
    exact absurd hb (Set.notMem_empty b)

theorem homeBit_almostFull {b : ℕ} (hb : b < 64) :
    homeBit (almostFullFs 1 0) (almostFull 1 0) b = !decide (b = 10) := by
  have hhome : home (almostFullFs 1 0) b = (0, b) := by
    simp only [home, almostFullFs, Nat.sub_zero]
    rw [Nat.div_eq_of_lt (by omega), Nat.mod_eq_of_lt (by omega)]
  rw [homeBit, hhome, bit_almostFull le_rfl (by omega)]

theorem almostFull_sound : Sound (almostFullFs 1 0) 64 :=
  ⟨rfl, by norm_num [almostFullFs], Or.inl (by norm_num [almostFullFs])⟩

theorem almostFull_reserve : Reserve (almostFullFs 1 0) 64 {b | b < 64} 1 (almostFull 1 0) := by
  have hc := @almostFull_consistent 1 0 le_rfl (by omega)
  refine ⟨hc.numbers almostFull_sound, hc.allocInv almostFull_sound (by simp) List.nodup_nil,
    fun b hb => hb, fun b hb => ?_, fun b hb _ => hb, by decide +kernel⟩
  have hlt : b < 64 ∧ b ≠ 10 := by
    rcases hb with rfl | rfl | ⟨k, g, hg, rfl⟩
    · omega
    · simp [almostFullFs]
    · obtain rfl : g = 0 := by simpa [almostFullFs] using hg
      rw [bitmapBlock_almostFull (by omega)]
      cases k <;> simp
  refine ⟨hlt.1, ?_⟩
  rw [homeBit_almostFull hlt.1]
  simp [hlt.2]

theorem almostFull_healthy : Healthy (almostFullFs 1 0) (almostFull 1 0) :=
  ⟨fun _ => rfl, fun _ => rfl, by norm_num [almostFullFs], by norm_num [almostFullFs]⟩

/-- Block 3 of an empty file is named by the inode itself, and mapping it leaves the others alone
whatever free blocks hold; block 12 needs an indirect block. -/
theorem mapLaw_iff_emptyInode :
    (∀ w₁, SameButFree (almostFullFs 1 0) 64 (almostFull 1 0) w₁ →
      MapLaw (almostFullFs 1 0) w₁ emptyInode 3 20) ∧
    ¬ ∀ w₁, SameButFree (almostFullFs 1 0) 64 (almostFull 1 0) w₁ →
      MapLaw (almostFullFs 1 0) w₁ emptyInode 12 20 := by
  have hs : (almostFullFs 1 0).Sized := almostFullFs_sized le_rfl
  have h₃ : realBlockPath (almostFullFs 1 0) 3 = some (3, []) := by decide +kernel
  have h₁₂ : realBlockPath (almostFullFs 1 0) 12 = some (12, [0]) := by decide +kernel
  constructor
  · rw [(mapLaw_iff hs (by norm_num) (mapped_emptyInode _ _ _) h₃).2 almostFull_reserve
      almostFull_healthy]
    intro slot is hpath
    rw [h₃] at hpath
    obtain ⟨rfl, rfl⟩ := Prod.mk.inj (Option.some.inj hpath)
    trivial
  · rw [(mapLaw_iff hs (by norm_num) (mapped_emptyInode _ _ _) h₁₂).2 almostFull_reserve
      almostFull_healthy]
    exact fun hc => (hc 12 [0] h₁₂).1 (iBlock_emptyInode 12)

/-- The free block of the volume holds ones. When block 12 of an empty file is mapped it becomes the
indirect block, and block 13 is found at block `2 ^ 32 - 1`. -/
theorem mapLaw_can_fail :
    ¬ ∀ (fs : Fs) (blocksCnt : ℕ) (w : World) (inode : Mem) (n v : ℕ), Consistent fs blocksCnt w →
      Sound fs blocksCnt → Mapped fs ∅ w inode →
      n < 12 + fs.entries + fs.entries ^ 2 + fs.entries ^ 3 → v < 2 ^ 32 → MapLaw fs w inode n v := by
  intro hall
  have hlaw := hall _ 64 _ emptyInode 12 20 (almostFull_consistent le_rfl (by omega))
    almostFull_sound (mapped_emptyInode _ _ _) (by norm_num [almostFullFs, Fs.entries]) (by norm_num)
  have hrun : (realBlockWrite (almostFullFs 1 0) (almostFull 1 0) emptyInode 12 20).map
      (fun r => (r.1, realBlockRead (almostFullFs 1 0) r.2.2 r.2.1 13))
        = some (true, some (2 ^ 32 - 1)) := by
    decide +kernel
  obtain ⟨⟨ok, inode', w'⟩, hwrite, heq⟩ := Option.map_eq_some_iff.mp hrun
  obtain ⟨rfl, hnew⟩ := Prod.mk.inj heq
  have hold : realBlockRead (almostFullFs 1 0) (almostFull 1 0) emptyInode 13 = some 0 := by
    decide +kernel
  have hother := (hlaw inode' w' hwrite).2 13 (by omega)
  simp only at hnew
  rw [hnew, hold] at hother
  exact absurd hother (by simp)

end Shaunos.Ext2
