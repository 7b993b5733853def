import Mathlib.Algebra.BigOperators.Intervals
import Shaunos.Ext2.File

/-!
# `ext2_write`

Reference: `Kernel/ext2.c` (`ext2_write`).

The write goes block by block from the position of the file. A block that is not mapped is allocated,
filled and mapped; from then on `new_block_flag` stays set, so later blocks are mapped again and
`i_size` grows by more than the bytes of their block. `block_needed` is counted from the start of the
file, so after a write that ends with a block there is, except in the first blocks of the file, one
more turn for no byte at all.

* `writeLoop_spec` — the bytes, the position and the size after the loop.
-/

namespace Shaunos.Ext2

/-! ## Definitions -/

/-- The part of `struct file` and `struct vnode` that is used. -/
structure File where
  vId : ℕ
  vSize : ℕ
  currPos : ℕ
  endPos : ℕ

/-- The local variables of `ext2_write`, with the state they refer to. -/
structure WriteState where
  w : World
  inode : Mem
  tmpBuf : Mem
  newBlockFlag : Bool
  blockStart : ℕ
  currPos : ℕ
  nbytes : ℕ
  /-- How far `buf` has been advanced. -/
  bufPos : ℕ

/-- How a turn of the loop ends. -/
inductive Flow where
  | next
  | last
  /-- `goto END` or `goto END1`, with `retval`. -/
  | fail (retval : ℕ)

/-- `END1`: the block at hand is freed, whether it is new or not. -/
def WriteState.freeBlock (fs : Fs) (s : WriteState) (blockNo : ℕ) : WriteState :=
  { s with w := (Ext2.freeBlock fs s.w blockNo).2 }

/-- The block at hand is mapped when the flag is set. -/
def WriteState.mapBlock (fs : Fs) (s : WriteState) (w : World) (blockNo : ℕ) :
    Option (Bool × Mem × World) :=
  if s.newBlockFlag then realBlockWrite fs w s.inode s.blockStart blockNo
  else some (true, s.inode, w)

/-- A turn from `block_ready` on. -/
def writeReady (fs : Fs) (buf : Mem) (s : WriteState) (blockNo : ℕ) : Option (Flow × WriteState) :=
  let blockOffset := s.currPos % fs.blksize
  let full := (s.nbytes + blockOffset) % 2 ^ 32 ≥ fs.blksize
  let len := if full then fs.blksize - blockOffset else s.nbytes
  let s := { s with tmpBuf := s.tmpBuf.memcpy blockOffset buf s.bufPos len }
  match rwBlockWrite fs s.w blockNo s.tmpBuf with
  | none => some (.fail minusOne, s.freeBlock fs blockNo)
  | some w => do
      let (ok, inode, w) ← s.mapBlock fs w blockNo
      let s := { s with w, inode }
      if ok = false then return (.fail minusOne, s.freeBlock fs blockNo)
      else
        let s := { s with currPos := (s.currPos + len) % 2 ^ 32, bufPos := s.bufPos + len }
        let grown (n : ℕ) := setISize (addSectors fs inode) (iSize inode + n)
        if full then
          return (.next, { s with
            nbytes := s.nbytes - len
            blockStart := s.blockStart + 1
            inode := if s.newBlockFlag then
                grown (s.blockStart * fs.blksize + fs.blksize - blockOffset)
              else inode })
        else
          return (.last, { s with
            inode := if s.newBlockFlag then grown (s.blockStart * fs.blksize + s.nbytes)
              else setISize inode (iSize inode + s.nbytes) })

/-- A turn of the loop. When a block cannot be allocated, `retval` is the 0 of the lookup. -/
def writeStep (fs : Fs) (buf : Mem) (s : WriteState) : Option (Flow × WriteState) :=
  match realBlockRead fs s.w s.inode s.blockStart with
  | none => some (.fail minusOne, s)
  | some blockNo =>
      if blockNo = 0 then do
        let (blockNo, w) ← allocBlock fs s.w
        if blockNo = minusOne then return (.fail 0, { s with w })
        else
          let tmpBuf := s.tmpBuf.memset 0 0 fs.blksize
          writeReady fs buf { s with w, newBlockFlag := true, tmpBuf } blockNo
      else if blockNo = minusOne then some (.fail minusOne, s)
      else
        match rwBlockRead fs s.w blockNo s.tmpBuf with
        | none => some (.fail minusOne, s)
        | some tmpBuf => writeReady fs buf { s with tmpBuf } blockNo

/-- `for (i=0; i<block_needed; i++)`: the state, and `retval` if the loop was left by an error. -/
def writeLoop (fs : Fs) (buf : Mem) : (fuel : ℕ) → WriteState → Option (Option ℕ × WriteState)
  | 0, s => some (none, s)
  | fuel + 1, s => do
      let (flow, s) ← writeStep fs buf s
      match flow with
      | .next => writeLoop fs buf fuel s
      | .last => return (none, s)
      | .fail retval => return (some retval, s)

/-- `inode->i_atime = inode->i_mtime = CURRENT_TIME_SEC`. -/
def setTimes (inode : Mem) (now : ℕ) : Mem := (inode.set32 16 now).set32 8 now

/-- `ext2_write`: its result, whether every transfer succeeded, the file and the volume. An inode
that cannot be read or written goes unnoticed, since `-EIO` is compared with -1. -/
def write (fs : Fs) (w : World) (now : ℕ) (file : File) (buf : Mem) (nbytes : ℕ) :
    Option (ℕ × Bool × File × World) :=
  let blockStart := file.currPos / fs.blksize
  let blockNeeded := (nbytes + file.currPos + fs.blksize - 1) % 2 ^ 32 / fs.blksize
  if nbytes = 0 then some (0, true, file, w)
  else if nbytes = minusOne then some (minusOne, true, file, w)
  else do
    let read ← rwInodeRead fs w file.vId w.junk
    let (error, s) ← writeLoop fs buf blockNeeded
      { w, inode := read.getD w.junk, tmpBuf := w.junk.memset 0 0 fs.blksize, newBlockFlag := false,
        blockStart, currPos := file.currPos, nbytes, bufPos := 0 }
    let file := { file with currPos := s.currPos }
    match error with
    | some retval => return (retval, false, file, s.w)
    | none =>
        let inode := setTimes s.inode now
        let written ← rwInodeWrite fs s.w file.vId inode
        let file := { file with endPos := iSize inode, vSize := iSize inode }
        return (0, read.isSome && written.isSome, file, written.getD s.w)

/-! ## A turn of the loop -/

/-- How the local variables move in a turn for `len` bytes that finds `size` in the inode, with the
flag at `flag`. -/
structure Moved (fs : Fs) (s s' : WriteState) (flow : Flow) (len size : ℕ) (flag : Bool) : Prop where
  currPos : s'.currPos = s.currPos + len
  bufPos : s'.bufPos = s.bufPos + len
  newBlockFlag : s'.newBlockFlag = flag
  full : fs.blksize ≤ s.nbytes + s.currPos % fs.blksize →
    len = fs.blksize - s.currPos % fs.blksize ∧ flow = .next ∧ s'.nbytes = s.nbytes - len ∧
      s'.blockStart = s.blockStart + 1 ∧
      iSize s'.inode = (size + if flag then
        s.blockStart * fs.blksize + fs.blksize - s.currPos % fs.blksize else 0) % 2 ^ 32
  part : s.nbytes + s.currPos % fs.blksize < fs.blksize →
    len = s.nbytes ∧ flow = .last ∧
      iSize s'.inode = (size + if flag then s.blockStart * fs.blksize + s.nbytes else s.nbytes)
        % 2 ^ 32

section

variable {fs : Fs} {blocksCnt b k c : ℕ} {B : Prop} {R : Set ℕ} {s s' : WriteState} {flow : Flow}
  {buf inode : Mem}

theorem sameMap_setISize (inode : Mem) (v : ℕ) : SameMap inode (setISize inode v) := fun _ _ =>
  Mem.get32_set32_of_disjoint (by omega)

theorem sameMap_addSectors (inode : Mem) : SameMap inode (addSectors fs inode) := fun _ _ =>
  Mem.get32_set32_of_disjoint (by omega)

theorem SameMap.trans {i j k : Mem} (h : SameMap i j) (h' : SameMap j k) : SameMap i k :=
  fun s hs => (h' s hs).trans (h s hs)

@[simp] theorem iSize_setISize (inode : Mem) (v : ℕ) : iSize (setISize inode v) = v % 2 ^ 32 :=
  Mem.get32_set32_self _ _ _

/-- Only the size and the count of sectors differ. -/
def Resized (inode inode' : Mem) : Prop :=
  SameMap inode inode' ∧ ∀ x, Kept x → inode' x = inode x

theorem Resized.refl (inode : Mem) : Resized inode inode := ⟨fun _ _ => rfl, fun _ _ => rfl⟩

theorem resized_setISize (inode : Mem) (v : ℕ) : Resized inode (setISize inode v) :=
  ⟨sameMap_setISize inode v, fun _ hx => Mem.writeLE_of_notMem (by have := hx.1; omega)⟩

theorem resized_grown (inode : Mem) (v : ℕ) : Resized inode (setISize (addSectors fs inode) v) :=
  ⟨(sameMap_addSectors inode).trans (sameMap_setISize _ v), fun _ hx =>
    (Mem.writeLE_of_notMem (by have := hx.1; omega)).trans (addSectors_apply hx.2.1)⟩

/-- What a turn does from `block_ready` on, when it succeeds: the block is written, mapped again when
the flag is set, and then the variables move. -/
theorem writeReady_cases (hwrap : s.currPos + s.nbytes + fs.blksize ≤ 2 ^ 32) (hpos : 0 < fs.blksize)
    (h : writeReady fs buf s b = some (flow, s')) (hok : ∀ r, flow ≠ .fail r) :
    ∃ len w inode, Moved fs s s' flow len (iSize inode) s.newBlockFlag ∧
      rwBlockWrite fs s.w b (s.tmpBuf.memcpy (s.currPos % fs.blksize) buf s.bufPos len) = some w ∧
      s.mapBlock fs w b = some (true, inode, s'.w) ∧ Resized inode s'.inode := by
  have hoff : s.currPos % fs.blksize < fs.blksize := Nat.mod_lt _ hpos
  have hle : s.currPos % fs.blksize ≤ s.currPos := Nat.mod_le _ _
  unfold writeReady at h
  simp only at h
  rw [Nat.mod_eq_of_lt (show s.nbytes + s.currPos % fs.blksize < 2 ^ 32 by omega)] at h
  set len := if s.nbytes + s.currPos % fs.blksize ≥ fs.blksize then
    fs.blksize - s.currPos % fs.blksize else s.nbytes with hlen
  split at h
  · obtain ⟨rfl, -⟩ := Prod.mk.inj (Option.some.inj h)
    exact absurd rfl (hok _)
  rename_i w hwrite
  obtain ⟨⟨ok, inode, w'⟩, hmap, h⟩ := Option.bind_eq_some_iff.mp h
  simp only at h
  split at h
  · obtain ⟨rfl, -⟩ := Prod.mk.inj (Option.some.inj h)
    exact absurd rfl (hok _)
  rename_i hok'
  obtain rfl : ok = true := by simpa using hok'
  split at h
  · rename_i hfull
    obtain ⟨rfl, rfl⟩ := Prod.mk.inj (Option.some.inj h)
    have hlen' : len = fs.blksize - s.currPos % fs.blksize := if_pos hfull
    refine ⟨len, w, inode, ⟨Nat.mod_eq_of_lt (by omega), rfl, rfl, fun _ => ⟨hlen', rfl, rfl, rfl, ?_⟩,
      fun hpart => absurd hpart (by omega)⟩, hwrite, hmap, ?_⟩
    · simp only
      split
      · exact iSize_setISize _ _
      · rw [Nat.add_zero]
        exact (Nat.mod_eq_of_lt (Mem.get32_lt _ _)).symm
    · simp only
      split
      · exact resized_grown inode _
      · exact Resized.refl inode
  · rename_i hpart
    obtain ⟨rfl, rfl⟩ := Prod.mk.inj (Option.some.inj h)
    have hlen' : len = s.nbytes := if_neg hpart
    refine ⟨len, w, inode, ⟨Nat.mod_eq_of_lt (by omega), rfl, rfl, fun hfull => absurd hfull hpart,
      fun _ => ⟨hlen', rfl, ?_⟩⟩, hwrite, hmap, ?_⟩
    · simp only
      split
      · exact iSize_setISize _ _
      · exact iSize_setISize _ _
    · simp only
      split
      · exact resized_grown inode _
      · exact resized_setISize inode _

/-- A turn from `block_ready` on, with the bytes of the block in the buffer. -/
theorem writeReady_spec (hs : fs.Sized) (hf : Filed fs R s.w s.inode)
    (hwrap : s.currPos + s.nbytes + fs.blksize ≤ 2 ^ 32) (hb0 : b ≠ 0) (hb32 : b < 2 ^ 32)
    (hb : fs.Addressable b ∧ b ∉ R ∧ b ∉ indirect fs s.w s.inode)
    (hfresh : ∀ m, realBlockRead fs s.w s.inode m = some b → m = s.blockStart)
    (hflag : s.newBlockFlag = false → realBlockRead fs s.w s.inode s.blockStart = some b)
    (hsup : s.newBlockFlag = true → WayComplete fs s.w s.inode s.blockStart ∨
      Supply fs blocksCnt R (wayLength fs s.blockStart) s.w)
    (h : writeReady fs buf s b = some (flow, s')) (hok : ∀ r, flow ≠ .fail r) :
    ∃ len inode R', Moved fs s s' flow len (iSize s.inode) s.newBlockFlag ∧ Resized inode s'.inode ∧
      Put fs blocksCnt B R R' s.w s'.w s.inode inode s.blockStart b
        (s.tmpBuf.memcpy (s.currPos % fs.blksize) buf s.bufPos len) := by
  have hpos := hs.pos
  obtain ⟨len, w, inode, hmoved, hwrite, hmap, hres⟩ :=
    writeReady_cases hwrap (by omega) h hok
  have hput : ∃ R', Put fs blocksCnt B R R' s.w s'.w s.inode inode s.blockStart b
      (s.tmpBuf.memcpy (s.currPos % fs.blksize) buf s.bufPos len) := by
    unfold WriteState.mapBlock at hmap
    split at hmap
    · rename_i hset
      exact put_map hs hf hb0 hb32 hb hfresh (hsup hset) hwrite hmap
    · rename_i hset
      simp only [Option.some.injEq, Prod.mk.injEq, true_and] at hmap
      obtain ⟨rfl, rfl⟩ := hmap
      exact ⟨R, put_write hs hf hb0 (hflag (by simpa using hset)) hwrite⟩
  obtain ⟨R', hput⟩ := hput
  have hsize : iSize inode = iSize s.inode :=
    Mem.readLE_congr fun x _ _ => hput.rest x (by omega) (by omega)
  exact ⟨len, inode, R', hsize ▸ hmoved, hres, hput⟩

/-- The bytes of the file after the bytes of its block were patched. -/
theorem patched_bytes {f f' : ℕ → BitVec 8} {tmp : Mem} {pos len bs q : ℕ} (hbs : 0 < bs)
    (hlen : pos % bs + len ≤ bs) (htmp : ∀ i < bs, tmp i = f (pos / bs * bs + i))
    (hf : ∀ x, f' x = if x / bs = pos / bs then (tmp.memcpy (pos % bs) buf q len) (x % bs) else f x)
    (x : ℕ) : f' x = if pos ≤ x ∧ x < pos + len then buf (q + (x - pos)) else f x := by
  have hx := Nat.div_add_mod x bs
  have hp := Nat.div_add_mod pos bs
  have hxlt := Nat.mod_lt x hbs
  rw [hf]
  by_cases hblock : x / bs = pos / bs
  · rw [if_pos hblock, Mem.memcpy]
    rw [hblock] at hx
    by_cases hin : pos % bs ≤ x % bs ∧ x % bs < pos % bs + len
    · rw [if_pos hin, if_pos (by omega)]
      congr 1
      omega
    · rw [if_neg hin, if_neg (by omega), htmp _ hxlt, Nat.mul_comm, hx]
  · rw [if_neg hblock, if_neg]
    rintro ⟨h₁, h₂⟩
    apply hblock
    apply Nat.div_eq_of_lt_le
    · rw [Nat.mul_comm]
      omega
    · rw [Nat.succ_mul, Nat.mul_comm]
      omega

theorem Moved.len_le {len size : ℕ} {flag : Bool} (h : Moved fs s s' flow len size flag) (hpos : 0 < fs.blksize) :
    s.currPos % fs.blksize + len ≤ fs.blksize := by
  have hmod := Nat.mod_lt s.currPos hpos
  by_cases hfull : fs.blksize ≤ s.nbytes + s.currPos % fs.blksize
  · have := (h.full hfull).1
    omega
  · have := (h.part (by omega)).1
    omega

theorem div_block {n i bs : ℕ} (hi : i < bs) : (n * bs + i) / bs = n := by
  rw [Nat.mul_comm, Nat.mul_add_div (by omega), Nat.div_eq_of_lt hi, Nat.add_zero]

theorem mod_block {n i bs : ℕ} (hi : i < bs) : (n * bs + i) % bs = i := by
  rw [Nat.mul_comm, Nat.mul_add_mod, Nat.mod_eq_of_lt hi]

/-- What a turn for block `n` may cost: nothing when the block is mapped, one block when only the
block itself is missing, and the blocks of its way when those hold zeros. -/
def Served (fs : Fs) (w : World) (inode : Mem) (B : Prop) (cost n : ℕ) : Prop :=
  (∃ b, b ≠ 0 ∧ realBlockRead fs w inode n = some b) ∨ (WayComplete fs w inode n ∧ 1 ≤ cost) ∨
    (B ∧ 1 + wayLength fs n ≤ cost)

/-- The block at the position is not mapped. -/
def WriteState.hole (fs : Fs) (s : WriteState) : Bool :=
  realBlockRead fs s.w s.inode s.blockStart = some 0

/-- **A turn of the loop.** The bytes at the position are those of the buffer, the others stay; the
variables move as if the flag had been set before when the block is not mapped. -/
theorem writeStep_spec (hs : fs.Sized) (hf : Filed fs R s.w s.inode)
    (hstart : s.blockStart = s.currPos / fs.blksize)
    (hwrap : s.currPos + s.nbytes + fs.blksize ≤ 2 ^ 32)
    (hprov : s.newBlockFlag = false ∧
        (∃ b, b ≠ 0 ∧ realBlockRead fs s.w s.inode s.blockStart = some b) ∨
      Stock fs blocksCnt B R (c + k) s.w ∧ Served fs s.w s.inode B c s.blockStart)
    (h : writeStep fs buf s = some (flow, s')) (hok : ∀ r, flow ≠ .fail r) :
    ∃ len R', Grown fs R R' s.w s'.w s.inode s'.inode ∧
      Moved fs s s' flow len (iSize s.inode) (s.newBlockFlag || s.hole fs) ∧
      (Stock fs blocksCnt B R (c + k) s.w ∧ Served fs s.w s.inode B c s.blockStart →
        Stock fs blocksCnt B R' k s'.w) ∧
      (∀ m, m ≠ s.blockStart →
        realBlockRead fs s'.w s'.inode m = realBlockRead fs s.w s.inode m) ∧
      ∀ x, fileByte fs s'.w s'.inode x = if s.currPos ≤ x ∧ x < s.currPos + len then
        buf (s.bufPos + (x - s.currPos)) else fileByte fs s.w s.inode x := by
  have hpos := hs.pos
  have hmodlt := Nat.mod_lt s.currPos (show 0 < fs.blksize by omega)
  unfold writeStep at h
  split at h
  · obtain ⟨rfl, -⟩ := Prod.mk.inj (Option.some.inj h)
    exact absurd rfl (hok _)
  rename_i b hread
  split at h
  · -- the block is not mapped: one is taken, and holds zeros in the buffer
    rename_i hz
    subst hz
    have hhole : s.hole fs = true := by simp [WriteState.hole, hread]
    have hnot : ¬ ∃ b, b ≠ 0 ∧ realBlockRead fs s.w s.inode s.blockStart = some b := by
      rintro ⟨b, hb0, hb⟩
      rw [hread] at hb
      exact hb0 (Option.some.inj hb).symm
    obtain ⟨hstock, hserved⟩ := hprov.resolve_left fun hp => hnot hp.2
    have hserved' := hserved.resolve_left hnot
    obtain ⟨c', rfl⟩ : ∃ c', c = c' + 1 :=
      Nat.exists_eq_succ_of_ne_zero (by rcases hserved' with hc | hc <;> omega)
    obtain ⟨⟨b, w₁⟩, halloc, h⟩ := Option.bind_eq_some_iff.mp h
    simp only at h
    split at h
    · obtain ⟨rfl, -⟩ := Prod.mk.inj (Option.some.inj h)
      exact absurd rfl (hok _)
    rename_i hne
    have hstock' : Stock fs blocksCnt B R (c' + k + 1) s.w := hstock.mono (by omega)
    obtain ⟨hbR, hb0, hbout, hgrown, hstock₁, hread₁, hbytes₁⟩ := grown_alloc hs hf hstock' halloc hne
    have haddr := hstock.1.addressable hbR
    have hway : ∀ m, WayComplete fs s.w s.inode m → WayComplete fs w₁ s.inode m := hgrown.complete
    have hsup : WayComplete fs w₁ s.inode s.blockStart ∨
        Supply fs blocksCnt (R \ {b}) (wayLength fs s.blockStart) w₁ := by
      rcases hserved' with hc | hc
      · exact Or.inl (hway _ hc.1)
      · exact Or.inr ((hstock₁.2 hc.1).mono (by omega))
    have hb32 : b < 2 ^ 32 := by
      rw [← hstock.1.mod_eq hbR]
      exact Nat.mod_lt _ (by norm_num)
    have hspec := @writeReady_spec fs blocksCnt b B (R \ {b})
      { s with w := w₁, newBlockFlag := true, tmpBuf := s.tmpBuf.memset 0 0 fs.blksize } s' flow buf
      hs hgrown.filed hwrap hb0 hb32
      ⟨haddr, fun hmem => hmem.2 rfl, fun hmem => hbout (Or.inl hmem)⟩
      (fun m hm => absurd (Or.inr ⟨hb0, m, hm⟩) hbout) (fun hset => absurd hset (by simp))
      (fun _ => hsup) h hok
    obtain ⟨len, inode, R', hmoved, hres, hput⟩ := hspec
    refine ⟨len, R', (hgrown.put hbR hput).sameMap hres.1 hres.2, ?_, fun _ => ?_, fun m hm => ?_, ?_⟩
    · rw [hhole, Bool.or_true]
      exact ⟨hmoved.currPos, hmoved.bufPos, hmoved.newBlockFlag, hmoved.full, hmoved.part⟩
    · rcases hserved' with hc | hc
      · exact hput.stock k (hway _ hc.1) (hstock₁.mono (by omega))
      · have hcost : wayLength fs s.blockStart + k ≤ c' + k := by omega
        exact hput.stock_blank k hc.1 (hstock₁.mono hcost)
    · rw [hres.1.realBlockRead, hput.other m hm, hread₁]
    · refine @patched_bytes _ _ _ (s.tmpBuf.memset 0 0 fs.blksize) _ _ _ _ (by omega)
        (hmoved.len_le (by omega)) (fun i hi => ?_) fun x => ?_
      · rw [← hstart, fileByte_of_some (b := 0) (by rw [div_block hi, hread]), if_pos rfl, Mem.memset,
          if_pos (by omega)]
      · rw [hres.1.fileByte, hput.bytes, hbytes₁, ← hstart]
  split at h
  · obtain ⟨rfl, -⟩ := Prod.mk.inj (Option.some.inj h)
    exact absurd rfl (hok _)
  rename_i hb0 _
  have hhole : s.hole fs = false := by simp [WriteState.hole, hread, hb0]
  split at h
  · obtain ⟨rfl, -⟩ := Prod.mk.inj (Option.some.inj h)
    exact absurd rfl (hok _)
  rename_i tmpBuf hblock
  have hmem : b ∈ dataBlocks fs s.w s.inode := ⟨hb0, _, hread⟩
  have haddr := (hf.data b hmem).1
  have hb32 : b < 2 ^ 32 := by
    have hle : b * 1 ≤ b * fs.blksize := Nat.mul_le_mul_left b (by omega)
    unfold Fs.Addressable at haddr
    omega
  have hway := wayComplete_of_mapped hs hb0 hread
  obtain ⟨len, inode, R', hmoved, hres, hput⟩ := @writeReady_spec fs blocksCnt b B R
    { s with tmpBuf } s' flow buf hs hf hwrap hb0 hb32 (hf.data b hmem) (fun m hm => hf.inj m _ b hb0 hm hread) (fun _ => hread)
    (fun _ => Or.inl hway) h hok
  refine ⟨len, R', (hput.grown (Or.inr hmem)).sameMap hres.1 hres.2, ?_, fun hst => ?_, fun m hm => ?_,
    ?_⟩
  · rw [hhole, Bool.or_false]
    exact ⟨hmoved.currPos, hmoved.bufPos, hmoved.newBlockFlag, hmoved.full, hmoved.part⟩
  · exact hput.stock k hway (hst.1.mono (by omega))
  · rw [hres.1.realBlockRead, hput.other m hm]
  · refine @patched_bytes _ _ _ tmpBuf _ _ _ _ (by omega) (hmoved.len_le (by omega)) (fun i hi => ?_)
      fun x => ?_
    · rw [← hstart, fileByte_of_some (b := b) (by rw [div_block hi, hread]), if_neg hb0, mod_block hi]
      exact rwBlockRead_eq_some hs hblock i hi
    · rw [hres.1.fileByte, hput.bytes, ← hstart]

end

/-! ## The loop -/

/-- What the loop adds to `i_size`, from block `start` and offset `off` in it, when the blocks that
are not mapped are those of `hole`. -/
def sizeGrowth (bs : ℕ) (hole : ℕ → Bool) : (fuel start off nbytes : ℕ) → (flag : Bool) → ℕ
  | 0, _, _, _, _ => 0
  | fuel + 1, start, off, nbytes, flag =>
      let flag := flag || hole start
      if bs ≤ nbytes + off then
        (if flag then start * bs + bs - off else 0)
          + sizeGrowth bs hole fuel (start + 1) 0 (nbytes - (bs - off)) flag
      else if flag then start * bs + nbytes
      else nbytes

/-- The number of turns of the loop. -/
def turns (bs fuel off nbytes : ℕ) : ℕ := min fuel ((off + nbytes) / bs + 1)

/-- What the loop needs from the volume: all blocks are mapped, or what is missing is in stock. -/
def LoopServed (fs : Fs) (blocksCnt : ℕ) (B : Prop) (R : Set ℕ) (cost : ℕ → ℕ) (count : ℕ)
    (s : WriteState) : Prop :=
  (s.newBlockFlag = false ∧ ∀ m, s.blockStart ≤ m → m < s.blockStart + count →
    ∃ b, b ≠ 0 ∧ realBlockRead fs s.w s.inode m = some b) ∨
  (Stock fs blocksCnt B R (∑ m ∈ Finset.Ico s.blockStart (s.blockStart + count), cost m) s.w ∧
    ∀ m, s.blockStart ≤ m → m < s.blockStart + count → Served fs s.w s.inode B (cost m) m)

section

variable {fs : Fs} {blocksCnt : ℕ} {B : Prop} {R : Set ℕ} {cost : ℕ → ℕ} {s s' : WriteState}
  {buf : Mem}

/-- What the loop needs for its first turn. -/
theorem LoopServed.first {count : ℕ} (h : LoopServed fs blocksCnt B R cost (count + 1) s) :
    s.newBlockFlag = false ∧
        (∃ b, b ≠ 0 ∧ realBlockRead fs s.w s.inode s.blockStart = some b) ∨
      Stock fs blocksCnt B R (cost s.blockStart +
          ∑ m ∈ Finset.Ico (s.blockStart + 1) (s.blockStart + 1 + count), cost m) s.w ∧
        Served fs s.w s.inode B (cost s.blockStart) s.blockStart := by
  rcases h with ⟨hflag, hall⟩ | ⟨hstock, hall⟩
  · exact Or.inl ⟨hflag, hall s.blockStart le_rfl (by omega)⟩
  · rw [Finset.sum_eq_sum_Ico_succ_bot (by omega),
      show s.blockStart + (count + 1) = s.blockStart + 1 + count by omega] at hstock
    exact Or.inr ⟨hstock, hall s.blockStart le_rfl (by omega)⟩

/-- What the loop needs after its first turn. -/
theorem LoopServed.next {count : ℕ} {R' : Set ℕ}
    (h : LoopServed fs blocksCnt B R cost (count + 1) s)
    (hgrown : Grown fs R R' s.w s'.w s.inode s'.inode) (hstart : s'.blockStart = s.blockStart + 1)
    (hflag' : s'.newBlockFlag = (s.newBlockFlag || s.hole fs))
    (hother : ∀ m, m ≠ s.blockStart →
      realBlockRead fs s'.w s'.inode m = realBlockRead fs s.w s.inode m)
    (hstock' : Stock fs blocksCnt B R (cost s.blockStart +
          ∑ m ∈ Finset.Ico (s.blockStart + 1) (s.blockStart + 1 + count), cost m) s.w ∧
        Served fs s.w s.inode B (cost s.blockStart) s.blockStart →
      Stock fs blocksCnt B R'
        (∑ m ∈ Finset.Ico (s.blockStart + 1) (s.blockStart + 1 + count), cost m) s'.w) :
    LoopServed fs blocksCnt B R' cost count s' := by
  have hfirst := h.first
  rcases h with ⟨hflag, hall⟩ | ⟨hstock, hall⟩
  · refine Or.inl ⟨?_, fun m h₁ h₂ => ?_⟩
    · obtain ⟨b, hb0, hb⟩ := hall s.blockStart le_rfl (by omega)
      rw [hflag', hflag, WriteState.hole, hb]
      simpa using hb0
    · rw [hother m (by omega)]
      exact hall m (by omega) (by omega)
  · refine Or.inr ⟨?_, fun m h₁ h₂ => ?_⟩
    · rw [hstart]
      rw [Finset.sum_eq_sum_Ico_succ_bot (by omega),
        show s.blockStart + (count + 1) = s.blockStart + 1 + count by omega] at hstock
      exact hstock' ⟨hstock, hall s.blockStart le_rfl (by omega)⟩
    · rcases hall m (by omega) (by omega) with ⟨b, hb0, hb⟩ | ⟨hway, hc⟩ | hblank
      · exact Or.inl ⟨b, hb0, (hother m (by omega)).trans hb⟩
      · exact Or.inr (Or.inl ⟨hgrown.complete m hway, hc⟩)
      · exact Or.inr (Or.inr hblank)

/-- **The loop of `ext2_write`.** When it is not left by an error, the bytes from the position on are
those of the buffer, the other bytes stay, the position has moved by all bytes, and `i_size` has
grown by `sizeGrowth`. -/
theorem writeLoop_spec (hs : fs.Sized) {fuel : ℕ} {hole : ℕ → Bool} (hf : Filed fs R s.w s.inode)
    (hstart : s.blockStart = s.currPos / fs.blksize)
    (hwrap : s.currPos + s.nbytes + fs.blksize ≤ 2 ^ 32)
    (hfuel : (s.currPos % fs.blksize + s.nbytes + fs.blksize - 1) / fs.blksize ≤ fuel)
    (hhole : ∀ m, s.blockStart ≤ m →
      hole m = decide (realBlockRead fs s.w s.inode m = some 0))
    (hserved : LoopServed fs blocksCnt B R cost
      (turns fs.blksize fuel (s.currPos % fs.blksize) s.nbytes) s)
    (h : writeLoop fs buf fuel s = some (none, s')) :
    (∃ R', Grown fs R R' s.w s'.w s.inode s'.inode) ∧ s'.currPos = s.currPos + s.nbytes ∧
      iSize s'.inode = (iSize s.inode + sizeGrowth fs.blksize hole fuel s.blockStart
        (s.currPos % fs.blksize) s.nbytes s.newBlockFlag) % 2 ^ 32 ∧
      ∀ x, fileByte fs s'.w s'.inode x = if s.currPos ≤ x ∧ x < s.currPos + s.nbytes then
        buf (s.bufPos + (x - s.currPos)) else fileByte fs s.w s.inode x := by
  have hpos := hs.pos
  induction fuel generalizing s R with
  | zero =>
      simp only [writeLoop, Option.some.injEq, Prod.mk.injEq, true_and] at h
      subst h
      have hzero : s.nbytes = 0 := by
        by_contra hne
        have hdiv : 0 < (s.currPos % fs.blksize + s.nbytes + fs.blksize - 1) / fs.blksize :=
          Nat.div_pos (by omega) (by omega)
        omega
      refine ⟨⟨R, Grown.refl hf⟩, by omega, ?_, fun x => ?_⟩
      · rw [sizeGrowth, Nat.add_zero]
        exact (Nat.mod_eq_of_lt (Mem.get32_lt _ _)).symm
      · rw [if_neg (by omega)]
  | succ fuel ih =>
      rw [writeLoop] at h
      obtain ⟨⟨flow, s₁⟩, hstep, h⟩ := Option.bind_eq_some_iff.mp h
      have hturns : turns fs.blksize (fuel + 1) (s.currPos % fs.blksize) s.nbytes
          = min fuel ((s.currPos % fs.blksize + s.nbytes) / fs.blksize) + 1 := by
        unfold turns
        omega
      rw [hturns] at hserved
      have hok : ∀ r, flow ≠ .fail r := by
        rintro r rfl
        simp at h
      obtain ⟨len, R₁, hgrown, hmoved, hstock, hother, hbytes⟩ :=
        writeStep_spec hs hf hstart hwrap hserved.first hstep hok
      have hhole₀ : (s.newBlockFlag || s.hole fs) = (s.newBlockFlag || hole s.blockStart) := by
        rw [hhole s.blockStart le_rfl]
        rfl
      have hmod := Nat.mod_lt s.currPos (show 0 < fs.blksize by omega)
      have hdiv := Nat.div_add_mod s.currPos fs.blksize
      rw [← hstart] at hdiv
      by_cases hfull : fs.blksize ≤ s.nbytes + s.currPos % fs.blksize
      · -- the block is written to its end
        obtain ⟨hlen, rfl, hnbytes, hstart₁, hsize⟩ := hmoved.full hfull
        have hpos₁ : s₁.currPos = fs.blksize * (s.blockStart + 1) := by
          rw [hmoved.currPos, Nat.mul_succ]
          omega
        have hoff₁ : s₁.currPos % fs.blksize = 0 := by rw [hpos₁, Nat.mul_mod_right]
        have hblock₁ : s₁.blockStart = s₁.currPos / fs.blksize := by
          rw [hstart₁, hpos₁, Nat.mul_div_cancel_left _ (by omega)]
        have hcurr₁ : s₁.currPos = s.currPos + len := hmoved.currPos
        have hnb₁ : s₁.nbytes = s.nbytes - len := hnbytes
        have hsplit : s.currPos % fs.blksize + s.nbytes = s₁.nbytes + fs.blksize := by omega
        have hserved₁ : LoopServed fs blocksCnt B R₁ cost
            (turns fs.blksize fuel (s₁.currPos % fs.blksize) s₁.nbytes) s₁ := by
          rw [hsplit, Nat.add_div_right _ (by omega)] at hserved hstock
          have hcount : turns fs.blksize fuel (s₁.currPos % fs.blksize) s₁.nbytes
              = min fuel (s₁.nbytes / fs.blksize + 1) := by
            rw [turns, hoff₁, Nat.zero_add]
          rw [hcount]
          exact hserved.next hgrown hstart₁ hmoved.newBlockFlag hother hstock
        obtain ⟨⟨R', hgrown'⟩, hcurr', hsize', hbytes'⟩ := ih hgrown.filed hblock₁ (by omega) (by
            rw [hoff₁, Nat.zero_add]
            have := hfuel
            rw [show s.currPos % fs.blksize + s.nbytes + fs.blksize - 1
              = s₁.nbytes + fs.blksize - 1 + fs.blksize by omega, Nat.add_div_right _ (by omega)]
              at this
            omega) (fun m hm => by rw [hhole m (by omega), hother m (by omega)]) hserved₁ h
        refine ⟨⟨R', hgrown.trans hgrown'⟩, by omega, ?_, fun x => ?_⟩
        · rw [hsize', hsize, hoff₁, hmoved.newBlockFlag, sizeGrowth, if_pos hfull, ← hlen, hnbytes, hstart₁,
            ← hhole₀]
          rw [Nat.mod_add_mod, Nat.add_assoc]
        · rw [hbytes', hbytes, hmoved.bufPos]
          by_cases h₁ : s₁.currPos ≤ x ∧ x < s₁.currPos + s₁.nbytes
          · rw [if_pos h₁, if_pos (by omega)]
            congr 1
            omega
          · rw [if_neg h₁]
            by_cases h₂ : s.currPos ≤ x ∧ x < s.currPos + len
            · rw [if_pos h₂, if_pos (by omega)]
            · rw [if_neg h₂, if_neg (by omega)]
      · -- the last block
        obtain ⟨hlen, rfl, hsize⟩ := hmoved.part (by omega)
        simp only [Option.pure_def, Option.some.injEq, Prod.mk.injEq, true_and] at h
        subst h
        refine ⟨⟨R₁, hgrown⟩, ?_, ?_, ?_⟩
        · rw [hmoved.currPos, hlen]
        · rw [hsize, sizeGrowth, if_neg hfull, ← hhole₀]
        · rw [hlen] at hbytes
          exact hbytes

end

end Shaunos.Ext2
