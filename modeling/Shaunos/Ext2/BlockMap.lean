import Shaunos.Common.PtrTree
import Shaunos.Ext2.Supply

/-!
# The block map of an inode

Reference: `Kernel/ext2.c` (`ext2_inode_rw_real_block`, `ext2_inode_read_block`).

An inode names its first 12 blocks itself; three more numbers in it are the roots of trees of
indirect blocks with one, two and three levels. `realBlockPath` is the way to a logical block: a slot
of the inode and the indices to follow. The source writes the four cases out, each with the same
steps at each of its levels; `walkRead` and `walkWrite` are those steps.

A missing indirect block is allocated on a write and then read, with whatever it held before as its
entries.

* `walkRead_eq` — a read follows a way in the store of entries;
* `walkWrite_spec`, `realBlockWrite_spec` — what a write does to the map, the volume and the reserve,
  when no indirect block on its way is missing or free blocks hold zeros.
-/

namespace Shaunos.Ext2

/-! ## Definitions -/

/-- `one_block_entries`. -/
def Fs.entries (fs : Fs) : ℕ := fs.blksize / 4

/-- The slot of the inode and the indices in the indirect blocks that lead to logical block
`blockNo`. The ends of the ranges are computed in 32 bits. -/
def realBlockPath (fs : Fs) (blockNo : ℕ) : Option (ℕ × List ℕ) :=
  let n := fs.entries
  let n₂ := n * n % 2 ^ 32
  let singlyEnd := (12 + n) % 2 ^ 32
  let doublyEnd := (singlyEnd + n₂) % 2 ^ 32
  let triplyEnd := (doublyEnd + n₂ * n % 2 ^ 32) % 2 ^ 32
  if blockNo < 12 then some (blockNo, [])
  else if blockNo < singlyEnd then some (12, [blockNo - 12])
  else if blockNo < doublyEnd then
    let a := blockNo - singlyEnd
    some (13, [a / n, a % n])
  else if blockNo < triplyEnd then
    let a := blockNo - doublyEnd
    let c := a % n₂
    some (14, [a / n₂, c / n, c % n])
  else none

/-- Follow indices from block `p`. A number 0 on the way is the result. -/
def walkRead (fs : Fs) (w : World) : (is : List ℕ) → (p : ℕ) → (tmpBuf : Mem) → Option ℕ
  | [], p, _ => some p
  | i :: is, p, tmpBuf =>
      if p = 0 then some 0
      else do
        let tmpBuf ← rwBlockRead fs w p tmpBuf
        walkRead fs w is (tmpBuf.get32 (4 * i)) tmpBuf

/-- `ext2_inode_rw_real_block` with mode 0; `none` stands for -1. -/
def realBlockRead (fs : Fs) (w : World) (inode : Mem) (blockNo : ℕ) : Option ℕ := do
  let (slot, is) ← realBlockPath fs blockNo
  walkRead fs w is (iBlock inode slot) w.junk

/-- `inode->i_sector_cnt += fs->blksize / 512`. -/
def addSectors (fs : Fs) (inode : Mem) : Mem :=
  setISectorCnt inode (iSectorCnt inode + fs.blksize / 512)

/-- Follow indices from the indirect block `p`, allocating what is missing, and store `realBlock` at
the end; false stands for -1. There is no result when an assertion fails. -/
def walkWrite (fs : Fs) (realBlock : ℕ) : (is : List ℕ) → (p : ℕ) → (tmpBuf inode : Mem) → (w : World) →
    Option (Bool × Mem × World)
  | [], _, _, inode, w => some (true, inode, w)
  | i :: is, p, tmpBuf, inode, w =>
      match rwBlockRead fs w p tmpBuf with
      | none => some (false, inode, w)
      | some tmpBuf =>
          if is = [] then
            match rwBlockWrite fs w p (tmpBuf.set32 (4 * i) realBlock) with
            | none => some (false, inode, w)
            | some w => some (true, inode, w)
          else if tmpBuf.get32 (4 * i) = 0 then do
            let (rb, w) ← allocBlock fs w
            if rb = minusOne then none
            else
              let tmpBuf := tmpBuf.set32 (4 * i) rb
              match rwBlockWrite fs w p tmpBuf with
              | none => some (false, inode, w)
              | some w => walkWrite fs realBlock is rb tmpBuf (addSectors fs inode) w
          else walkWrite fs realBlock is (tmpBuf.get32 (4 * i)) tmpBuf inode w

/-- `ext2_inode_rw_real_block` with mode 1: the inode is changed in memory, its blocks on disk. -/
def realBlockWrite (fs : Fs) (w : World) (inode : Mem) (blockNo realBlock : ℕ) :
    Option (Bool × Mem × World) :=
  match realBlockPath fs blockNo with
  | none => some (false, inode, w)
  | some (slot, []) => some (true, setIBlock inode slot realBlock, w)
  | some (slot, is) =>
      if iBlock inode slot = 0 then do
        let (rb, w) ← allocBlock fs w
        if rb = minusOne then none
        else walkWrite fs realBlock is rb w.junk (addSectors fs (setIBlock inode slot rb)) w
      else walkWrite fs realBlock is (iBlock inode slot) w.junk inode w

/-- `ext2_inode_read_block`: the number and the content of a logical block; 0 when it is not mapped,
-1 when it cannot be read. When the number itself cannot be read, the local variable for it is used
unassigned. -/
def inodeReadBlock (fs : Fs) (w : World) (inode : Mem) (blockNo : ℕ) (buf : Mem) : ℕ × Mem :=
  let realBlock := (realBlockRead fs w inode blockNo).getD w.uninit
  if realBlock = minusOne then (minusOne, buf)
  else if realBlock = 0 then (0, buf)
  else
    match rwBlockRead fs w realBlock buf with
    | none => (minusOne, buf)
    | some buf => (realBlock, buf)

/-! ## Ways -/

section

variable {fs : Fs} {n m slot : ℕ} {is : List ℕ}

/-- The number of levels below a slot of the inode. -/
def levels (slot : ℕ) : ℕ := slot - 11

/-- Indices stay inside a block, and there are as many as the slot has levels. -/
theorem realBlockPath_eq_some (h : realBlockPath fs n = some (slot, is)) :
    slot < 15 ∧ is.length = levels slot ∧ ∀ i ∈ is, i < fs.entries := by
  unfold realBlockPath at h
  simp only at h
  have hle : ∀ a, a % 2 ^ 32 ≤ a := fun a => Nat.mod_le a _
  split at h
  · obtain ⟨rfl, rfl⟩ := Prod.mk.inj (Option.some.inj h)
    exact ⟨by omega, by simp [levels]; omega, by simp⟩
  split at h
  · obtain ⟨rfl, rfl⟩ := Prod.mk.inj (Option.some.inj h)
    have := hle (12 + fs.entries)
    refine ⟨by omega, rfl, fun i hi => ?_⟩
    obtain rfl := List.mem_singleton.mp hi
    omega
  split at h
  · rename_i hge hlt
    obtain ⟨rfl, rfl⟩ := Prod.mk.inj (Option.some.inj h)
    have h₁ := hle ((12 + fs.entries) % 2 ^ 32 + fs.entries * fs.entries % 2 ^ 32)
    have h₂ := hle (fs.entries * fs.entries)
    have ha : n - (12 + fs.entries) % 2 ^ 32 < fs.entries * fs.entries := by omega
    have hpos : 0 < fs.entries := Nat.pos_of_ne_zero fun h0 => by simp [h0] at ha
    refine ⟨by omega, rfl, fun i hi => ?_⟩
    rcases List.mem_cons.mp hi with rfl | hi
    · exact Nat.div_lt_of_lt_mul ha
    · obtain rfl := List.mem_singleton.mp hi
      exact Nat.mod_lt _ hpos
  split at h
  · obtain ⟨rfl, rfl⟩ := Prod.mk.inj (Option.some.inj h)
    set n₂ := fs.entries * fs.entries % 2 ^ 32 with hn₂
    set doublyEnd := ((12 + fs.entries) % 2 ^ 32 + n₂) % 2 ^ 32
    have h₁ := hle (doublyEnd + n₂ * fs.entries % 2 ^ 32)
    have h₂ := hle (n₂ * fs.entries)
    have h₃ : n₂ ≤ fs.entries * fs.entries := hle _
    have ha : n - doublyEnd < n₂ * fs.entries := by omega
    have hpos₂ : 0 < n₂ := Nat.pos_of_ne_zero fun h0 => by simp [h0] at ha
    have hpos : 0 < fs.entries := Nat.pos_of_ne_zero fun h0 => by simp [h0] at ha
    have hc : (n - doublyEnd) % n₂ < fs.entries * fs.entries :=
      lt_of_lt_of_le (Nat.mod_lt _ hpos₂) h₃
    refine ⟨by omega, rfl, fun i hi => ?_⟩
    rcases List.mem_cons.mp hi with rfl | hi
    · exact Nat.div_lt_of_lt_mul ha
    rcases List.mem_cons.mp hi with rfl | hi
    · exact Nat.div_lt_of_lt_mul hc
    · obtain rfl := List.mem_singleton.mp hi
      exact Nat.mod_lt _ hpos
  · exact absurd h (by simp)

/-- The logical block that a way leads to. -/
def blockAt (fs : Fs) (slot : ℕ) (is : List ℕ) : ℕ :=
  let n := fs.entries
  let n₂ := n * n % 2 ^ 32
  let singlyEnd := (12 + n) % 2 ^ 32
  let doublyEnd := (singlyEnd + n₂) % 2 ^ 32
  match is with
  | [i] => 12 + i
  | [i, j] => singlyEnd + (n * i + j)
  | [i, j, k] => doublyEnd + (n₂ * i + (n * j + k))
  | _ => slot

theorem blockAt_of_path (h : realBlockPath fs n = some (slot, is)) : blockAt fs slot is = n := by
  unfold realBlockPath at h
  simp only at h
  split at h
  · obtain ⟨rfl, rfl⟩ := Prod.mk.inj (Option.some.inj h)
    rfl
  split at h
  · obtain ⟨rfl, rfl⟩ := Prod.mk.inj (Option.some.inj h)
    simp only [blockAt]
    omega
  split at h
  · obtain ⟨rfl, rfl⟩ := Prod.mk.inj (Option.some.inj h)
    simp only [blockAt, Nat.div_add_mod]
    omega
  split at h
  · obtain ⟨rfl, rfl⟩ := Prod.mk.inj (Option.some.inj h)
    simp only [blockAt, Nat.div_add_mod]
    omega
  · exact absurd h (by simp)

/-- Different logical blocks have different ways. -/
theorem realBlockPath_inj (hn : realBlockPath fs n = some (slot, is))
    (hm : realBlockPath fs m = some (slot, is)) : n = m :=
  (blockAt_of_path hn).symm.trans (blockAt_of_path hm)

end

/-! ## The trees of indirect blocks -/

/-- The entries of the blocks that can be read. -/
def blockEntries (fs : Fs) (w : World) : PtrTree.Store := fun b =>
  (rwBlockRead fs w b w.junk).map fun _ i =>
    if i < fs.entries then (w.block fs b).get32 (4 * i) else 0

section

variable {fs : Fs} {w w' : World} {S : Set ℕ} {b p : ℕ} {buf m : Mem}

/-- Whether a block can be read does not depend on the buffer. -/
theorem rwBlockRead_isSome (buf buf' : Mem) :
    (rwBlockRead fs w b buf).isSome = (rwBlockRead fs w b buf').isSome := by
  unfold rwBlockRead blockRead
  simp only
  split <;> rfl

theorem blockEntries_of_read (hs : fs.Sized) (h : rwBlockRead fs w b buf = some m) :
    blockEntries fs w b = some fun i => if i < fs.entries then m.get32 (4 * i) else 0 := by
  have hsome : (rwBlockRead fs w b w.junk).isSome = true := by
    rw [rwBlockRead_isSome w.junk buf, h]
    rfl
  obtain ⟨m', hm'⟩ := Option.isSome_iff_exists.mp hsome
  rw [blockEntries, hm', Option.map_some]
  congr 1
  funext i
  split
  · rename_i hi
    apply Mem.readLE_congr
    intro x _ hx
    unfold Fs.entries at hi
    exact (rwBlockRead_eq_some hs h x (by omega)).symm
  · rfl

theorem blockEntries_eq_none (h : rwBlockRead fs w b buf = none) : blockEntries fs w b = none := by
  have hnone : (rwBlockRead fs w b w.junk).isSome = false := by
    rw [rwBlockRead_isSome w.junk buf, h]
    rfl
  rw [blockEntries, Option.isSome_eq_false_iff.mp hnone |> Option.isNone_iff_eq_none.mp,
    Option.map_none]

/-- A block that holds zeros has no entries but 0. -/
theorem blockEntries_blank (hs : fs.Sized) (h : rwBlockRead fs w b buf = some m)
    (hblank : ∀ i < fs.blksize, w.block fs b i = 0) : blockEntries fs w b = some fun _ => 0 := by
  rw [blockEntries_of_read hs h]
  congr 1
  funext i
  split
  · rename_i hi
    unfold Fs.entries at hi
    have hzero : m.get32 (4 * i) = Mem.zero.get32 (4 * i) := by
      apply Mem.readLE_congr
      intro x _ hx
      rw [rwBlockRead_eq_some hs h x (by omega), hblank x (by omega)]
      rfl
    rw [hzero]
    rfl
  · rfl

/-- A block outside `S` keeps its entries. -/
theorem Frame.blockEntries (h : Frame fs S w w') (hb : fs.Addressable b) (hbS : b ∉ S) :
    blockEntries fs w' b = blockEntries fs w b := by
  have hread : (rwBlockRead fs w' b w'.junk).isSome = (rwBlockRead fs w b w.junk).isSome := by
    unfold rwBlockRead blockRead
    rw [h.badRead]
    simp only
    split <;> rfl
  have hcontent : (fun i => if i < fs.entries then (w'.block fs b).get32 (4 * i) else 0)
      = fun i => if i < fs.entries then (w.block fs b).get32 (4 * i) else 0 := by
    funext i
    split
    · rename_i hi
      apply Mem.readLE_congr
      intro x _ hx
      unfold Fs.entries at hi
      exact h.block b hb hbS x (by omega)
    · rfl
  unfold Ext2.blockEntries
  rw [hcontent]
  cases hr : rwBlockRead fs w b w.junk <;> cases hr' : rwBlockRead fs w' b w'.junk <;>
    rw [hr, hr'] at hread <;> first | rfl | exact absurd hread (by simp)

/-- Following indices is walking in the store of entries. -/
theorem walkRead_eq (hs : fs.Sized) {is : List ℕ} (his : ∀ i ∈ is, i < fs.entries) (p : ℕ)
    (tmpBuf : Mem) : walkRead fs w is p tmpBuf = PtrTree.walk (blockEntries fs w) p is := by
  induction is generalizing p tmpBuf with
  | nil => rfl
  | cons i is ih =>
      rw [walkRead, PtrTree.walk]
      split
      · rfl
      · cases hr : rwBlockRead fs w p tmpBuf with
        | none =>
            rw [blockEntries_eq_none hr]
            rfl
        | some m =>
            rw [blockEntries_of_read hs hr]
            simp only [Option.bind_eq_bind, Option.bind_some]
            rw [ih fun j hj => his j (List.mem_cons_of_mem i hj),
              if_pos (his i List.mem_cons_self)]

/-- The entries of a block that is written from a copy with one entry changed. -/
theorem blockEntries_write {i v : ℕ} (hi : i < fs.entries)
    (hread : rwBlockRead fs w p buf = some m) (hbad : w'.badRead = w.badRead)
    (hself : ∀ x < fs.blksize, w'.block fs p x = (m.set32 (4 * i) v) x) :
    blockEntries fs w' p
      = some (Function.update (fun j => if j < fs.entries then m.get32 (4 * j) else 0) i
          (v % 2 ^ 32)) := by
  have hsome : (rwBlockRead fs w' p w'.junk).isSome = true := by
    have h : (rwBlockRead fs w' p w'.junk).isSome = (rwBlockRead fs w p buf).isSome := by
      unfold rwBlockRead blockRead
      rw [hbad]
      simp only
      split <;> rfl
    rw [h, hread]
    rfl
  obtain ⟨m', hm'⟩ := Option.isSome_iff_exists.mp hsome
  rw [blockEntries, hm', Option.map_some]
  congr 1
  funext j
  have hget : j < fs.entries → (w'.block fs p).get32 (4 * j) = (m.set32 (4 * i) v).get32 (4 * j) := by
    intro hj
    apply Mem.readLE_congr
    intro x _ hx
    unfold Fs.entries at hj
    exact hself x (by omega)
  by_cases hji : j = i
  · subst hji
    rw [if_pos hi, hget hi, Function.update_self, Mem.get32_set32_self]
  · rw [Function.update_of_ne hji]
    split
    · rename_i hj
      rw [hget hj, Mem.get32_set32_of_disjoint (by omega)]
    · rfl

end

/-! ## Writing the map -/

/-- What a write at the end of a way from block `p` does: the way leads to `v` and others lead where
they did before, the tree stays a tree, and its new blocks came from the reserve. -/
structure Written (fs : Fs) (blocksCnt : ℕ) (R : Set ℕ) (w w' : World) (is : List ℕ) (p v : ℕ) :
    Prop where
  frame : Frame fs (PtrTree.nodes (blockEntries fs w) is.length p ∪ R) w w'
  value : PtrTree.walk (blockEntries fs w') p is = some v
  other : ∀ js, js.length = is.length → js ≠ is →
    PtrTree.walk (blockEntries fs w') p js = PtrTree.walk (blockEntries fs w) p js
  separate : PtrTree.Separate (blockEntries fs w') is.length p
  reserve : ∃ R' ⊆ R,
    PtrTree.nodes (blockEntries fs w') is.length p
      ⊆ PtrTree.nodes (blockEntries fs w) is.length p ∪ R \ R' ∧
    (∀ b ∈ R \ R', fs.Addressable b) ∧
    (∀ k, Supply fs blocksCnt R (is.length - 1 + k) w → Supply fs blocksCnt R' k w') ∧
    ∀ k, PtrTree.Complete (blockEntries fs w) p is →
      (Reserve fs blocksCnt R k w → Reserve fs blocksCnt R' k w') ∧
      (Supply fs blocksCnt R k w → Supply fs blocksCnt R' k w')
  complete : ∀ js, js.length = is.length → PtrTree.Complete (blockEntries fs w) p js →
    PtrTree.Complete (blockEntries fs w') p js

section

variable {fs : Fs} {blocksCnt : ℕ} {w w' : World} {R : Set ℕ} {p v : ℕ} {is : List ℕ}
  {tmpBuf inode inode' : Mem}

/-- The tree at an empty block has one node. -/
theorem nodes_blank (hne : is ≠ []) (hzeros : blockEntries fs w p = some fun _ => 0) :
    PtrTree.nodes (blockEntries fs w) is.length p ⊆ {p} := by
  cases is with
  | nil => exact absurd rfl hne
  | cons i is => exact PtrTree.nodes_zeros hzeros

theorem separate_blank (hzeros : blockEntries fs w p = some fun _ => 0) (is : List ℕ) :
    PtrTree.Separate (blockEntries fs w) is.length p := by
  cases is with
  | nil => trivial
  | cons i is => exact PtrTree.separate_zeros hzeros

/-- The last level: one entry of one block is written. -/
theorem written_last (hs : fs.Sized) (hv : v < 2 ^ 32) {i : ℕ} (hi : i < fs.entries) (hp : p ≠ 0)
    (hnodes : ∀ b ∈ PtrTree.nodes (blockEntries fs w) 1 p, fs.Addressable b ∧ b ∉ R)
    {m : Mem} (hread : rwBlockRead fs w p tmpBuf = some m)
    (hwrite : rwBlockWrite fs w p (m.set32 (4 * i) v) = some w') :
    Written fs blocksCnt R w w' [i] p v := by
  have hroot := PtrTree.root_mem_nodes (blockEntries fs w) 0 hp
  obtain ⟨haddr, hpR⟩ := hnodes p hroot
  obtain ⟨hframe, hgd, -, hself⟩ := frame_rwBlockWrite hs haddr hwrite
  have hold := blockEntries_of_read hs hread
  have hnew := blockEntries_write hi hread hframe.badRead hself
  rw [Nat.mod_eq_of_lt hv] at hnew
  refine ⟨hframe.mono (by rintro b rfl; exact Or.inl hroot), ?_, fun js hlen hne => ?_, ?_,
    ⟨R, subset_rfl, ?_, by simp, fun k hk => (hk.mono (by simp)).write hframe hgd (by simpa using hpR),
      fun k _ => ⟨fun hk => (hk.write hframe hgd ?_).1,
        fun hk => hk.write hframe hgd (by simpa using hpR)⟩⟩, fun js hlen _ => ?_⟩
  · rw [PtrTree.walk_cons_of_ne hp hnew, Function.update_self]
    rfl
  · obtain ⟨j, rfl⟩ := List.length_eq_one_iff.mp hlen
    have hji : j ≠ i := fun h => hne (h ▸ rfl)
    rw [PtrTree.walk_cons_of_ne hp hnew, PtrTree.walk_cons_of_ne hp hold,
      Function.update_of_ne hji]
    rfl
  · intro _ e _
    exact ⟨fun _ => Set.notMem_empty _, fun _ _ _ => Set.disjoint_empty _, fun _ => trivial⟩
  · rintro b ⟨-, rfl | ⟨e, -, j, hb⟩⟩
    · exact Or.inl hroot
    · exact absurd hb (Set.notMem_empty _)
  · exact Set.disjoint_singleton_left.mpr fun hmem => hpR (hk.metadata_subset hmem)
  · obtain ⟨j, rfl⟩ := List.length_eq_one_iff.mp hlen
    exact ⟨hp, fun _ _ => trivial⟩

/-- One level up: entry `i` of block `p` leads to `q`, and below `q` the write has taken place. -/
theorem written_cons {i q : ℕ} {e : ℕ → ℕ} (hp : p ≠ 0) (he : blockEntries fs w p = some e)
    (hsep : PtrTree.Separate (blockEntries fs w) (is.length + 1) p)
    (hnodes : ∀ b ∈ PtrTree.nodes (blockEntries fs w) (is.length + 1) p, fs.Addressable b ∧ b ∉ R)
    (hframe : Frame fs (PtrTree.nodes (blockEntries fs w) (is.length + 1) p ∪ R) w w')
    (he' : blockEntries fs w' p = some (Function.update e i q))
    (hother : ∀ j, j ≠ i → ∀ b ∈ PtrTree.nodes (blockEntries fs w) is.length (e j),
      blockEntries fs w' b = blockEntries fs w b)
    (hvalue : PtrTree.walk (blockEntries fs w') q is = some v)
    (hsame : ∀ js, js.length = is.length → js ≠ is →
      PtrTree.walk (blockEntries fs w') q js = PtrTree.walk (blockEntries fs w) (e i) js)
    (hsep' : PtrTree.Separate (blockEntries fs w') is.length q)
    (hres : ∃ R' ⊆ R, PtrTree.nodes (blockEntries fs w') is.length q
        ⊆ PtrTree.nodes (blockEntries fs w) is.length (e i) ∪ R \ R' ∧
      (∀ b ∈ R \ R', fs.Addressable b) ∧
      (∀ k, Supply fs blocksCnt R (is.length + k) w → Supply fs blocksCnt R' k w') ∧
      ∀ k, PtrTree.Complete (blockEntries fs w) (e i) is →
        (Reserve fs blocksCnt R k w → Reserve fs blocksCnt R' k w') ∧
        (Supply fs blocksCnt R k w → Supply fs blocksCnt R' k w'))
    (hcomplete : ∀ js, js.length = is.length → PtrTree.Complete (blockEntries fs w) (e i) js →
      PtrTree.Complete (blockEntries fs w') q js) :
    Written fs blocksCnt R w w' (i :: is) p v := by
  have hself : Function.update e i q i = q := Function.update_self i q e
  obtain ⟨hroot, hdisj, -⟩ := hsep hp e he
  obtain ⟨R', hR', hsub, hall, hsupply, hreserve⟩ := hres
  have hsubR : PtrTree.nodes (blockEntries fs w') is.length q
      ⊆ PtrTree.nodes (blockEntries fs w) is.length (e i) ∪ R :=
    hsub.trans (Set.union_subset_union_right _ Set.sdiff_subset)
  have hpR : p ∉ R := (hnodes p (PtrTree.root_mem_nodes _ _ hp)).2
  have hchild : ∀ j, ∀ b ∈ PtrTree.nodes (blockEntries fs w) is.length (e j), b ∉ R :=
    fun j b hb => (hnodes b (PtrTree.nodes_child_subset hp he j hb)).2
  refine ⟨hframe, ?_, fun js hlen hne => ?_, ?_,
    ⟨R', hR', ?_, hall, hsupply, fun k hc => hreserve k (hc.2 e he)⟩, fun js hlen hc => ?_⟩
  · rw [PtrTree.walk_cons_of_ne hp he', hself, hvalue]
  · cases js with
    | nil => exact absurd hlen (by simp)
    | cons j js =>
        rw [PtrTree.walk_cons_of_ne hp he', PtrTree.walk_cons_of_ne hp he]
        have hlen' : js.length = is.length := by simpa using hlen
        by_cases hj : j = i
        · subst hj
          rw [hself]
          exact hsame js hlen' fun h => hne (h ▸ rfl)
        · rw [Function.update_of_ne hj]
          exact PtrTree.walk_congr (hother j hj) hlen'.le
  · apply PtrTree.separate_of_update hsep hp he he' hother hsep'
    · intro hmem
      exact (hsubR hmem).elim (hroot i) hpR
    · intro j hj
      rw [Set.disjoint_left]
      intro b hb hb'
      exact (hsubR hb').elim (Set.disjoint_left.mp (hdisj j i hj) hb) (hchild j b hb)
  · refine (PtrTree.nodes_of_update hp he he' hother).trans (Set.union_subset ?_ ?_)
    · exact Set.subset_union_left
    · exact hsub.trans (Set.union_subset_union_left _ (PtrTree.nodes_child_subset hp he i))
  · cases js with
    | nil => exact absurd hlen (by simp)
    | cons j js =>
        have hlen' : js.length = is.length := by simpa using hlen
        refine ⟨hp, fun f hf => ?_⟩
        rw [he'] at hf
        obtain rfl := Option.some.inj hf
        by_cases hj : j = i
        · subst hj
          rw [hself]
          exact hcomplete js hlen' (hc.2 e he)
        · rw [Function.update_of_ne hj, PtrTree.complete_congr (hother j hj) hlen'.le]
          exact hc.2 e he

/-- A write below a new block, which held zeros and has left the reserve. -/
theorem Written.fresh {rb : ℕ} (hw : Written fs blocksCnt (R \ {rb}) w w' is rb v) (hne : is ≠ [])
    (hzeros : blockEntries fs w rb = some fun _ => 0) (hrb : rb ∈ R) (haddr : fs.Addressable rb) :
    Frame fs R w w' ∧
    (∀ js, js.length = is.length → js ≠ is →
      PtrTree.walk (blockEntries fs w') rb js = some 0) ∧
    ∃ R' ⊆ R, PtrTree.nodes (blockEntries fs w') is.length rb ⊆ R \ R' ∧
      (∀ b ∈ R \ R', fs.Addressable b) ∧
      ∀ k, Supply fs blocksCnt (R \ {rb}) (is.length - 1 + k) w → Supply fs blocksCnt R' k w' := by
  have hnodes := nodes_blank hne hzeros
  obtain ⟨R', hR', hsub, hall, hsupply, -⟩ := hw.reserve
  refine ⟨hw.frame.mono ?_, fun js hlen hjs => ?_, R', hR'.trans Set.sdiff_subset, ?_,
    fun b hb => ?_, hsupply⟩
  · exact Set.union_subset (hnodes.trans (Set.singleton_subset_iff.mpr hrb)) Set.sdiff_subset
  · have hjs0 : js ≠ [] := fun hnil => hne (List.length_eq_zero_iff.mp (by
      rw [← hlen, hnil]
      rfl))
    rw [hw.other js hlen hjs, PtrTree.walk_zeros hzeros hjs0]
  · refine hsub.trans (Set.union_subset ?_ ?_)
    · exact hnodes.trans (Set.singleton_subset_iff.mpr ⟨hrb, fun hmem => (hR' hmem).2 rfl⟩)
    · exact fun b hb => ⟨hb.1.1, hb.2⟩
  · by_cases hbr : b = rb
    · exact hbr ▸ haddr
    · exact hall b ⟨⟨hb.1, hbr⟩, hb.2⟩

theorem addSectors_apply {x : ℕ} (hx : x < 28 ∨ 32 ≤ x) : addSectors fs inode x = inode x :=
  Mem.writeLE_of_notMem hx

/-- A write that succeeds has read the first block of its way. -/
theorem walkWrite_read (hne : is ≠ [])
    (h : walkWrite fs v is p tmpBuf inode w = some (true, inode', w')) :
    ∃ m, rwBlockRead fs w p tmpBuf = some m := by
  cases is with
  | nil => exact absurd rfl hne
  | cons i is =>
      rw [walkWrite] at h
      split at h
      · exact absurd h (by simp)
      · exact ⟨_, by assumption⟩

/-- A way that starts nowhere is not complete. -/
theorem not_complete_zero (hne : is ≠ []) : ¬ PtrTree.Complete (blockEntries fs w) 0 is := by
  cases is with
  | nil => exact absurd rfl hne
  | cons i is => exact fun hc => hc.1 rfl

/-- **Following a way and writing its end.** Either the way is complete, or missing blocks come from
the reserve. Only the count of sectors in the inode changes. -/
theorem walkWrite_spec (hs : fs.Sized) (hv : v < 2 ^ 32) (hne : is ≠ [])
    (his : ∀ i ∈ is, i < fs.entries) (hp : p ≠ 0)
    (hsep : PtrTree.Separate (blockEntries fs w) is.length p)
    (hnodes : ∀ b ∈ PtrTree.nodes (blockEntries fs w) is.length p, fs.Addressable b ∧ b ∉ R)
    (hsup : PtrTree.Complete (blockEntries fs w) p is ∨ Supply fs blocksCnt R (is.length - 1) w)
    (h : walkWrite fs v is p tmpBuf inode w = some (true, inode', w')) :
    Written fs blocksCnt R w w' is p v ∧ ∀ x, x < 28 ∨ 32 ≤ x → inode' x = inode x := by
  induction is generalizing p tmpBuf inode w R with
  | nil => exact absurd rfl hne
  | cons i is ih =>
      have hi : i < fs.entries := his i List.mem_cons_self
      have his' : ∀ j ∈ is, j < fs.entries := fun j hj => his j (List.mem_cons_of_mem i hj)
      rw [walkWrite] at h
      split at h
      · exact absurd h (by simp)
      rename_i m hread
      have he := blockEntries_of_read hs hread
      split at h
      · -- the last level
        rename_i hnil
        subst hnil
        split at h
        · exact absurd h (by simp)
        rename_i w₁ hwrite
        simp only [Option.some.injEq, Prod.mk.injEq, true_and] at h
        obtain ⟨rfl, rfl⟩ := h
        exact ⟨written_last hs hv hi hp hnodes hread hwrite, fun _ _ => rfl⟩
      rename_i hcons
      set e : ℕ → ℕ := fun j => if j < fs.entries then m.get32 (4 * j) else 0 with hedef
      have hei : e i = m.get32 (4 * i) := if_pos hi
      rw [← hei] at h
      rw [List.length_cons] at hsep hnodes hsup
      obtain ⟨hroot, hdisj, hsepc⟩ := hsep hp e he
      have hrootR := hnodes p (PtrTree.root_mem_nodes _ _ hp)
      have hchild : ∀ j, ∀ b ∈ PtrTree.nodes (blockEntries fs w) is.length (e j),
          fs.Addressable b ∧ b ∉ R := fun j b hb =>
        hnodes b (PtrTree.nodes_child_subset hp he j hb)
      split at h
      · -- the entry is missing: the new block comes from the reserve and is empty
        rename_i hz
        obtain ⟨⟨rb, w₁⟩, halloc, h⟩ := Option.bind_eq_some_iff.mp h
        simp only at h
        split at h
        · exact absurd h (by simp)
        rename_i hrb
        split at h
        · exact absurd h (by simp)
        rename_i w₂ hwrite
        obtain ⟨n, hn⟩ : ∃ n, is.length = n + 1 :=
          Nat.exists_eq_succ_of_ne_zero fun h0 => hcons (List.length_eq_zero_iff.mp h0)
        have hsupply : Supply fs blocksCnt R (n + 1) w :=
          hn ▸ hsup.resolve_left fun hc => not_complete_zero hcons (hz ▸ hc.2 e he)
        obtain ⟨hrbR, hmeta, -, hblank, hframe₁⟩ := hsupply.alloc halloc hrb
        have hrb0 : rb ≠ 0 := fun h0 => hmeta (Or.inl h0)
        have hrbaddr := hsupply.addressable hrbR
        have hmetaR := hsupply.metadata_subset
        have hprb : p ≠ rb := fun heq => hrootR.2 (heq ▸ hrbR)
        obtain ⟨hframe₂, hgd₂, -, hself⟩ := frame_rwBlockWrite hs hrootR.1 hwrite
        have hstep : ∀ k, Supply fs blocksCnt R (k + 1) w → Supply fs blocksCnt (R \ {rb}) k w₂ :=
          fun k hk => (hk.alloc halloc hrb).2.2.1.write hframe₂ hgd₂
            (Set.disjoint_singleton_left.mpr fun hmem => hrootR.2 hmem.1)
        have he₂ : blockEntries fs w₂ p = some (Function.update e i rb) := by
          have := blockEntries_write hi hread (hframe₂.badRead.trans hframe₁.badRead) hself
          rwa [hsupply.mod_eq hrbR] at this
        -- below the new block there is nothing
        obtain ⟨m₂, hread₂⟩ := walkWrite_read hcons h
        have hzeros : blockEntries fs w₂ rb = some fun _ => 0 :=
          blockEntries_blank hs hread₂ fun x hx =>
            (hframe₂.block rb hrbaddr (Ne.symm hprb) x hx).trans (hblank x hx)
        obtain ⟨hw, hinode⟩ := ih hcons his' hrb0 (separate_blank hzeros is) (R := R \ {rb})
          (fun b hb => by
            obtain rfl := nodes_blank hcons hzeros hb
            exact ⟨hrbaddr, fun hmem => hmem.2 rfl⟩)
          (Or.inr (hstep _ (hsupply.mono (by omega)))) h
        refine ⟨?_, fun x hx => (hinode x hx).trans (addSectors_apply hx)⟩
        obtain ⟨hframe₃, hother, R', hR', hsub, hall, hsupply'⟩ := hw.fresh hcons hzeros hrbR hrbaddr
        have hE : ∀ b, fs.Addressable b → b ∉ R → b ≠ p →
            blockEntries fs w' b = blockEntries fs w b := fun b hb hbR hbp => by
          rw [hframe₃.blockEntries hb hbR, hframe₂.blockEntries hb hbp,
            hframe₁.blockEntries hb fun hm => hbR (hmetaR hm)]
        have hnc : ∀ js, js.length = is.length → ¬ PtrTree.Complete (blockEntries fs w) (e i) js := by
          intro js hlen hc
          rw [hz] at hc
          exact not_complete_zero (List.ne_nil_of_length_pos (by omega)) hc
        refine written_cons (q := rb) hp he hsep hnodes ?_ ?_ ?_ hw.value ?_ hw.separate
          ⟨R', hR', hsub.trans Set.subset_union_right, hall, fun k hk => ?_,
            fun k hc => absurd hc (hnc is rfl)⟩ fun js hlen hc => absurd hc (hnc js hlen)
        · refine (hframe₁.mono (hmetaR.trans Set.subset_union_right)).trans
            ((hframe₂.mono ?_).trans (hframe₃.mono Set.subset_union_right))
          exact Set.singleton_subset_iff.mpr (Or.inl (PtrTree.root_mem_nodes _ _ hp))
        · rw [hframe₃.blockEntries hrootR.1 hrootR.2, he₂]
        · intro j hj b hb
          exact hE b (hchild j b hb).1 (hchild j b hb).2 fun hbp => hroot j (hbp ▸ hb)
        · intro js hlen hne'
          rw [hother js hlen hne', hz, PtrTree.walk_zero]
        · exact hsupply' k (hstep _ (hk.mono (by omega)))
      · rename_i hnz
        have hsup' : PtrTree.Complete (blockEntries fs w) (e i) is ∨
            Supply fs blocksCnt R (is.length - 1) w :=
          hsup.imp (fun hc => hc.2 e he) fun hk => hk.mono (by simp)
        obtain ⟨hw, hinode⟩ := ih hcons his' hnz (hsepc i) (hchild i) hsup' h
        refine ⟨?_, hinode⟩
        have hE : ∀ b, fs.Addressable b → b ∉ R →
            b ∉ PtrTree.nodes (blockEntries fs w) is.length (e i) →
            blockEntries fs w' b = blockEntries fs w b := fun b hb hbR hbn =>
          hw.frame.blockEntries hb fun hmem => hmem.elim hbn hbR
        obtain ⟨R', hR', hsub, hall, hsupply, hreserve⟩ := hw.reserve
        refine written_cons (q := e i) hp he hsep hnodes ?_ ?_ ?_ hw.value hw.other hw.separate
          ⟨R', hR', hsub, hall, fun k hk => hsupply k (hk.mono (by omega)), hreserve⟩ hw.complete
        · refine hw.frame.mono (Set.union_subset_union_left _ ?_)
          exact PtrTree.nodes_child_subset hp he i
        · rw [hE p hrootR.1 hrootR.2 (hroot i), he, Function.update_eq_self]
        · intro j hj b hb
          exact hE b (hchild j b hb).1 (hchild j b hb).2 (Set.disjoint_left.mp (hdisj j i hj) hb)

end

/-! ## The map of an inode -/

/-- The indirect blocks of an inode. -/
def indirect (fs : Fs) (w : World) (inode : Mem) : Set ℕ :=
  {b | ∃ s < 15, b ∈ PtrTree.nodes (blockEntries fs w) (levels s) (iBlock inode s)}

/-- The indirect blocks of an inode are a forest: none is used twice, and all of them lie within
reach and outside `R`. -/
structure Mapped (fs : Fs) (R : Set ℕ) (w : World) (inode : Mem) : Prop where
  separate : ∀ s < 15, PtrTree.Separate (blockEntries fs w) (levels s) (iBlock inode s)
  disjoint : ∀ s < 15, ∀ t < 15, s ≠ t →
    Disjoint (PtrTree.nodes (blockEntries fs w) (levels s) (iBlock inode s))
      (PtrTree.nodes (blockEntries fs w) (levels t) (iBlock inode t))
  outside : ∀ b ∈ indirect fs w inode, fs.Addressable b ∧ b ∉ R

/-- No indirect block on the way to logical block `n` is missing. -/
def WayComplete (fs : Fs) (w : World) (inode : Mem) (n : ℕ) : Prop :=
  ∀ slot is, realBlockPath fs n = some (slot, is) →
    PtrTree.Complete (blockEntries fs w) (iBlock inode slot) is

/-- What a write of the map does: block `n` is `v`, every other block is what it was, the map stays a
forest, its new indirect blocks came from the reserve, and nothing else is touched. -/
structure MapWritten (fs : Fs) (blocksCnt : ℕ) (R : Set ℕ) (w w' : World) (inode inode' : Mem)
    (need n v : ℕ) : Prop where
  frame : Frame fs (indirect fs w inode ∪ R) w w'
  value : realBlockRead fs w' inode' n = some v
  other : ∀ m, m ≠ n → realBlockRead fs w' inode' m = realBlockRead fs w inode m
  reserve : ∃ R' ⊆ R, Mapped fs R' w' inode' ∧
    indirect fs w' inode' ⊆ indirect fs w inode ∪ R \ R' ∧
    (∀ k, Supply fs blocksCnt R (need + k) w → Supply fs blocksCnt R' k w') ∧
    ∀ k, WayComplete fs w inode n →
      (Reserve fs blocksCnt R k w → Reserve fs blocksCnt R' k w') ∧
      (Supply fs blocksCnt R k w → Supply fs blocksCnt R' k w')
  complete : ∀ m, WayComplete fs w inode m → WayComplete fs w' inode' m
  rest : ∀ x, (x < 28 ∨ 32 ≤ x) → (x < 40 ∨ 100 ≤ x) → inode' x = inode x

section

variable {fs : Fs} {blocksCnt n v slot need : ℕ} {w w' : World} {R : Set ℕ} {is : List ℕ}
  {inode inode' : Mem}

theorem realBlockRead_eq (hs : fs.Sized) (hpath : realBlockPath fs n = some (slot, is)) :
    realBlockRead fs w inode n = PtrTree.walk (blockEntries fs w) (iBlock inode slot) is := by
  rw [realBlockRead, hpath]
  exact walkRead_eq hs (realBlockPath_eq_some hpath).2.2 _ _

/-- The map after slot `slot` became `q` and the write below `q` has taken place. -/
theorem mapWritten_slot {q : ℕ} (hs : fs.Sized) (hm : Mapped fs R w inode)
    (hpath : realBlockPath fs n = some (slot, is)) (hq : iBlock inode' slot = q)
    (hslots : ∀ s < 15, s ≠ slot → iBlock inode' s = iBlock inode s)
    (hframe : Frame fs (PtrTree.nodes (blockEntries fs w) is.length (iBlock inode slot) ∪ R) w w')
    (hvalue : PtrTree.walk (blockEntries fs w') q is = some v)
    (hsame : ∀ js, js.length = is.length → js ≠ is →
      PtrTree.walk (blockEntries fs w') q js
        = PtrTree.walk (blockEntries fs w) (iBlock inode slot) js)
    (hsep : PtrTree.Separate (blockEntries fs w') is.length q)
    (hres : ∃ R' ⊆ R, PtrTree.nodes (blockEntries fs w') is.length q
        ⊆ PtrTree.nodes (blockEntries fs w) is.length (iBlock inode slot) ∪ R \ R' ∧
      (∀ b ∈ R \ R', fs.Addressable b) ∧
      (∀ k, Supply fs blocksCnt R (need + k) w → Supply fs blocksCnt R' k w') ∧
      ∀ k, PtrTree.Complete (blockEntries fs w) (iBlock inode slot) is →
        (Reserve fs blocksCnt R k w → Reserve fs blocksCnt R' k w') ∧
        (Supply fs blocksCnt R k w → Supply fs blocksCnt R' k w'))
    (hcomplete : ∀ js, js.length = is.length →
      PtrTree.Complete (blockEntries fs w) (iBlock inode slot) js →
      PtrTree.Complete (blockEntries fs w') q js)
    (hrest : ∀ x, (x < 28 ∨ 32 ≤ x) → (x < 40 ∨ 100 ≤ x) → inode' x = inode x) :
    MapWritten fs blocksCnt R w w' inode inode' need n v := by
  obtain ⟨hslot, hlen, his⟩ := realBlockPath_eq_some hpath
  obtain ⟨R', hR', hsub, haddr, hsupply, hreserve⟩ := hres
  rw [hlen] at hframe hsep hsub
  have hmem : ∀ s < 15, ∀ b ∈ PtrTree.nodes (blockEntries fs w) (levels s) (iBlock inode s),
      b ∈ indirect fs w inode := fun s hs b hb => ⟨s, hs, hb⟩
  -- the other trees do not change
  have hE : ∀ s < 15, s ≠ slot →
      ∀ b ∈ PtrTree.nodes (blockEntries fs w) (levels s) (iBlock inode s),
        blockEntries fs w' b = blockEntries fs w b := by
    intro s hs hne b hb
    obtain ⟨haddr, hbR⟩ := hm.outside b (hmem s hs b hb)
    apply hframe.blockEntries haddr
    rintro (hb' | hb')
    · exact Set.disjoint_left.mp (hm.disjoint s hs slot hslot hne) hb hb'
    · exact hbR hb'
  have hnodes : ∀ s < 15, s ≠ slot →
      PtrTree.nodes (blockEntries fs w') (levels s) (iBlock inode' s)
        = PtrTree.nodes (blockEntries fs w) (levels s) (iBlock inode s) := by
    intro s hs hne
    rw [hslots s hs hne, PtrTree.nodes_congr (hE s hs hne)]
  have hnodesq : PtrTree.nodes (blockEntries fs w') (levels slot) (iBlock inode' slot)
      ⊆ PtrTree.nodes (blockEntries fs w) (levels slot) (iBlock inode slot) ∪ R \ R' := by
    rw [hq]
    exact hsub
  have hindirect : indirect fs w' inode' ⊆ indirect fs w inode ∪ R \ R' := by
    rintro b ⟨s, hs, hb⟩
    by_cases hne : s = slot
    · subst hne
      exact (hnodesq hb).imp (hmem s hs b) id
    · rw [hnodes s hs hne] at hb
      exact Or.inl (hmem s hs b hb)
  refine ⟨hframe.mono (Set.union_subset_union_left _ (hmem slot hslot)), ?_, fun m hne => ?_,
    ⟨R', hR', ⟨fun s hs => ?_, fun s hs t ht hst => ?_, fun b hb => ?_⟩, hindirect, hsupply,
      fun k hc => hreserve k (hc slot is hpath)⟩, fun m hc s js hpath' => ?_, hrest⟩
  · rw [realBlockRead_eq hs hpath, hq, hvalue]
  · cases hpath' : realBlockPath fs m with
    | none => rw [realBlockRead, realBlockRead, hpath']; rfl
    | some path =>
        obtain ⟨s, js⟩ := path
        obtain ⟨hs', hlen', -⟩ := realBlockPath_eq_some hpath'
        rw [realBlockRead_eq hs hpath', realBlockRead_eq hs hpath']
        by_cases hss : s = slot
        · subst hss
          rw [hq]
          apply hsame js (hlen'.trans hlen.symm)
          rintro rfl
          exact hne (realBlockPath_inj hpath' hpath)
        · rw [hslots s hs' hss]
          exact PtrTree.walk_congr (hE s hs' hss) hlen'.le
  · by_cases hss : s = slot
    · subst hss
      rwa [hq]
    · rw [hslots s hs hss]
      exact PtrTree.separate_congr (hE s hs hss) (hm.separate s hs)
  · -- the changed tree has old nodes of its own and nodes from the reserve
    have hdisj : ∀ s < 15, s ≠ slot →
        Disjoint (PtrTree.nodes (blockEntries fs w) (levels s) (iBlock inode s))
          (PtrTree.nodes (blockEntries fs w') (levels slot) (iBlock inode' slot)) := by
      intro s hs hne
      rw [Set.disjoint_left]
      intro b hb hb'
      rcases hnodesq hb' with hb' | hb'
      · exact Set.disjoint_left.mp (hm.disjoint s hs slot hslot hne) hb hb'
      · exact (hm.outside b (hmem s hs b hb)).2 hb'.1
    by_cases hss : s = slot
    · subst hss
      rw [hnodes t ht (Ne.symm hst)]
      exact (hdisj t ht (Ne.symm hst)).symm
    · by_cases hts : t = slot
      · subst hts
        rw [hnodes s hs hss]
        exact hdisj s hs hss
      · rw [hnodes s hs hss, hnodes t ht hts]
        exact hm.disjoint s hs t ht hst
  · rcases hindirect hb with hb | hb
    · exact ⟨(hm.outside b hb).1, fun hbR => (hm.outside b hb).2 (hR' hbR)⟩
    · exact ⟨haddr b hb, hb.2⟩
  · obtain ⟨hs', hlen', -⟩ := realBlockPath_eq_some hpath'
    by_cases hss : s = slot
    · subst hss
      rw [hq]
      exact hcomplete js (hlen'.trans hlen.symm) (hc s js hpath')
    · rw [hslots s hs' hss, PtrTree.complete_congr (hE s hs' hss) hlen'.le]
      exact hc s js hpath'

theorem iBlock_setIBlock (inode : Mem) (k v s : ℕ) :
    iBlock (setIBlock inode k v) s = if s = k then v % 2 ^ 32 else iBlock inode s := by
  split
  · rename_i h
    subst h
    exact Mem.get32_set32_self _ _ _
  · exact Mem.get32_set32_of_disjoint (by omega)

theorem iBlock_congr {m m' : Mem} (h : ∀ x, x < 28 ∨ 32 ≤ x → m' x = m x) (s : ℕ) :
    iBlock m' s = iBlock m s :=
  Mem.readLE_congr fun x hx _ => h x (by omega)

/-- **Writing the map.** Either no indirect block on the way is missing, or there is a supply of
empty blocks for the missing ones. -/
theorem realBlockWrite_spec (hs : fs.Sized) (hv : v < 2 ^ 32) (hm : Mapped fs R w inode)
    (hpath : realBlockPath fs n = some (slot, is))
    (hsup : PtrTree.Complete (blockEntries fs w) (iBlock inode slot) is ∨
      Supply fs blocksCnt R is.length w)
    (h : realBlockWrite fs w inode n v = some (true, inode', w')) :
    MapWritten fs blocksCnt R w w' inode inode' is.length n v := by
  obtain ⟨hslot, hlen, his⟩ := realBlockPath_eq_some hpath
  have hnodes : ∀ b ∈ PtrTree.nodes (blockEntries fs w) is.length (iBlock inode slot),
      fs.Addressable b ∧ b ∉ R := fun b hb => hm.outside b ⟨slot, hslot, hlen ▸ hb⟩
  have hsep : PtrTree.Separate (blockEntries fs w) is.length (iBlock inode slot) :=
    hlen ▸ hm.separate slot hslot
  unfold realBlockWrite at h
  rw [hpath] at h
  by_cases hne : is = []
  · -- a direct block
    subst hne
    simp only [Option.some.injEq, Prod.mk.injEq, true_and] at h
    obtain ⟨rfl, rfl⟩ := h
    have hsame : ∀ s, s ≠ slot → iBlock (setIBlock inode slot v) s = iBlock inode s :=
      fun s hss => by rw [iBlock_setIBlock, if_neg hss]
    refine mapWritten_slot hs hm hpath rfl (fun s _ hss => hsame s hss) (Frame.refl _ _ _) ?_ ?_
      trivial ⟨R, subset_rfl, Set.empty_subset _, by simp, fun k hk => ?_, fun _ _ => ⟨id, id⟩⟩
      (fun js hjs _ => ?_) fun x _ hx => ?_
    · rw [iBlock_setIBlock, if_pos rfl, Nat.mod_eq_of_lt hv]
      rfl
    · intro js hjs hne
      exact absurd (List.length_eq_zero_iff.mp hjs) hne
    · exact hk.mono (Nat.le_add_left _ _)
    · obtain rfl := List.length_eq_zero_iff.mp hjs
      trivial
    · exact Mem.writeLE_of_notMem (by omega)
  split at h
  · rename_i heq
    exact absurd heq (by simp)
  · rename_i heq
    simp only [Option.some.injEq, Prod.mk.injEq] at heq
    exact absurd heq.2 hne
  rename_i slot' is' heq
  simp only [Option.some.injEq, Prod.mk.injEq] at heq
  obtain ⟨rfl, rfl⟩ := heq
  split at h
  · -- the first indirect block is missing
    rename_i hz
    obtain ⟨⟨rb, w₁⟩, halloc, h⟩ := Option.bind_eq_some_iff.mp h
    simp only at h
    split at h
    · exact absurd h (by simp)
    rename_i hrb
    obtain ⟨d, hd⟩ : ∃ d, is.length = d + 1 :=
      Nat.exists_eq_succ_of_ne_zero fun h0 => hne (List.length_eq_zero_iff.mp h0)
    have hsupply : Supply fs blocksCnt R (d + 1) w :=
      hd ▸ hsup.resolve_left (hz ▸ not_complete_zero hne)
    obtain ⟨hrbR, hmeta, -, hblank, hframe₁⟩ := hsupply.alloc halloc hrb
    have hrb0 : rb ≠ 0 := fun h0 => hmeta (Or.inl h0)
    have hrbaddr := hsupply.addressable hrbR
    have hstep : ∀ k, Supply fs blocksCnt R (k + 1) w → Supply fs blocksCnt (R \ {rb}) k w₁ :=
      fun k hk => (hk.alloc halloc hrb).2.2.1
    obtain ⟨m₁, hread₁⟩ := walkWrite_read hne h
    have hzeros := blockEntries_blank hs hread₁ hblank
    obtain ⟨hw, hinode⟩ := walkWrite_spec hs hv hne his hrb0 (separate_blank hzeros is)
      (R := R \ {rb}) (fun b hb => by
        obtain rfl := nodes_blank hne hzeros hb
        exact ⟨hrbaddr, fun hmem => hmem.2 rfl⟩)
      (Or.inr (hstep _ (hsupply.mono (by omega)))) h
    obtain ⟨hframe₂, hother, R', hR', hsub, hall, hsupply'⟩ := hw.fresh hne hzeros hrbR hrbaddr
    have hinode' : ∀ x, x < 28 ∨ 32 ≤ x → inode' x = setIBlock inode slot rb x := fun x hx =>
      (hinode x hx).trans (addSectors_apply hx)
    have hnc : ∀ js, js.length = is.length →
        ¬ PtrTree.Complete (blockEntries fs w) (iBlock inode slot) js := by
      intro js hlen hc
      rw [hz] at hc
      exact not_complete_zero (List.ne_nil_of_length_pos (by omega)) hc
    refine mapWritten_slot hs hm hpath ?_ (fun s _ hss => ?_)
      ((hframe₁.mono (hsupply.metadata_subset.trans Set.subset_union_right)).trans
        (hframe₂.mono Set.subset_union_right))
      hw.value (fun js hlen hjs => ?_) hw.separate
      ⟨R', hR', hsub.trans Set.subset_union_right, hall, fun k hk => ?_, fun k hc => ?_⟩
      (fun js hlen hc => ?_) fun x hx hx' => ?_
    · rw [iBlock_congr hinode', iBlock_setIBlock, if_pos rfl, hsupply.mod_eq hrbR]
    · rw [iBlock_congr hinode', iBlock_setIBlock, if_neg hss]
    · rw [hother js hlen hjs, hz, PtrTree.walk_zero]
    · exact hsupply' k (hstep _ (hk.mono (by omega)))
    · exact absurd hc (hnc is rfl)
    · exact absurd hc (hnc js hlen)
    · exact (hinode' x hx).trans (Mem.writeLE_of_notMem (by omega))
  · rename_i hnz
    obtain ⟨hw, hinode⟩ := walkWrite_spec hs hv hne his hnz hsep hnodes
      (hsup.imp_right fun hk => hk.mono (Nat.sub_le _ _)) h
    obtain ⟨R', hR', hsub, hall, hsupply, hreserve⟩ := hw.reserve
    refine mapWritten_slot hs hm hpath (iBlock_congr hinode slot)
      (fun s _ _ => iBlock_congr hinode s) hw.frame hw.value hw.other hw.separate
      ⟨R', hR', hsub, hall, fun k hk => hsupply k (hk.mono (by omega)), hreserve⟩ hw.complete
      fun x hx _ => hinode x hx

/-! ## Changes elsewhere -/

variable {S : Set ℕ}

/-- The trees of an inode do not see a change elsewhere. -/
theorem Frame.trees (h : Frame fs S w w') (hm : Mapped fs R w inode)
    (hS : Disjoint S (indirect fs w inode)) {s : ℕ} (hs : s < 15) :
    ∀ b ∈ PtrTree.nodes (Ext2.blockEntries fs w) (levels s) (iBlock inode s),
      Ext2.blockEntries fs w' b = Ext2.blockEntries fs w b := by
  intro b hb
  have hmem : b ∈ Ext2.indirect fs w inode := ⟨s, hs, hb⟩
  exact h.blockEntries (hm.outside b hmem).1 fun hbS => Set.disjoint_left.mp hS hbS hmem

theorem Frame.indirect (h : Frame fs S w w') (hm : Mapped fs R w inode)
    (hS : Disjoint S (indirect fs w inode)) :
    Ext2.indirect fs w' inode = Ext2.indirect fs w inode := by
  ext b
  refine exists_congr fun s => and_congr_right fun hs => ?_
  rw [PtrTree.nodes_congr (h.trees hm hS hs)]

theorem Frame.mapped (h : Frame fs S w w') (hm : Mapped fs R w inode)
    (hS : Disjoint S (Ext2.indirect fs w inode)) : Mapped fs R w' inode := by
  refine ⟨fun s hs => PtrTree.separate_congr (h.trees hm hS hs) (hm.separate s hs),
    fun s hs t ht hst => ?_, fun b hb => ?_⟩
  · rw [PtrTree.nodes_congr (h.trees hm hS hs), PtrTree.nodes_congr (h.trees hm hS ht)]
    exact hm.disjoint s hs t ht hst
  · rw [h.indirect hm hS] at hb
    exact hm.outside b hb

theorem Frame.realBlockRead (hs : fs.Sized) (h : Frame fs S w w') (hm : Mapped fs R w inode)
    (hS : Disjoint S (Ext2.indirect fs w inode)) (n : ℕ) :
    Ext2.realBlockRead fs w' inode n = Ext2.realBlockRead fs w inode n := by
  cases hpath : realBlockPath fs n with
  | none => rw [Ext2.realBlockRead, Ext2.realBlockRead, hpath]; rfl
  | some path =>
      obtain ⟨slot, is⟩ := path
      obtain ⟨hslot, hlen, -⟩ := realBlockPath_eq_some hpath
      rw [realBlockRead_eq hs hpath, realBlockRead_eq hs hpath]
      exact PtrTree.walk_congr (h.trees hm hS hslot) hlen.le

theorem Frame.wayComplete (h : Frame fs S w w') (hm : Mapped fs R w inode)
    (hS : Disjoint S (Ext2.indirect fs w inode)) (n : ℕ) :
    WayComplete fs w' inode n ↔ WayComplete fs w inode n := by
  refine forall_congr' fun slot => forall_congr' fun is => forall_congr' fun hpath => ?_
  obtain ⟨hslot, hlen, -⟩ := realBlockPath_eq_some hpath
  exact PtrTree.complete_congr (h.trees hm hS hslot) hlen.le

end

end Shaunos.Ext2
