import Mathlib.Data.Finset.Card
import Mathlib.Data.List.Perm.Subperm
import Shaunos.Common.BoundaryTag
import Shaunos.Common.FirstLeast
import Shaunos.Mm.Bget

/-!
# What the BGET heap looks like

Reference: `Kernel/bget.c`.

The regions that were handed to `bpool` are the pools. Each is a row of buffers with boundary tags, closed by the
end sentinel, and the free buffers of all pools are the members of the free list.

* `Heap` — the invariant; `Heap.congr` — it rests on the headers and the links of the free list alone;
* `Heap.edit` — buffers side by side are exchanged for others that fill the same place;
* `dechain_ring`, `enchain_ring` — what the pointer writes do to the free list.
-/

namespace Shaunos.Mm.Bget

open BoundaryTag

/-- The headers of the buffers. -/
def tags (m : Mem) : Tags := ⟨prevfree m, bsize m⟩

@[simp] theorem tags_back (m : Mem) (s : ℕ) : (tags m).back s = prevfree m s := by rw [tags]

@[simp] theorem tags_size (m : Mem) (s : ℕ) : (tags m).size s = bsize m s := by rw [tags]

/-- The links of the free list. -/
def links (m : Mem) : Links ℕ := ⟨blink m, flink m⟩

@[simp] theorem links_next (m : Mem) (n : ℕ) : (links m).next n = flink m n := by rw [links]

@[simp] theorem links_prev (m : Mem) (n : ℕ) : (links m).prev n = blink m n := by rw [links]

/-- The end of a pool looks like a buffer in use, the size of which has no positive counterpart. -/
def sentinel : Chunk := ⟨2147483648, false⟩

theorem sentinel_tag : sentinel.tag = eSent := by decide

/-- A region that was handed to `bpool`. -/
structure Pool where
  base : ℕ
  blocks : List Chunk

namespace Pool

variable (p : Pool)

def row : List Chunk := p.blocks ++ [sentinel]

/-- Where the sentinel is. -/
def top : ℕ := p.base + extent p.blocks

/-- Where the buffers start. -/
def heads : List ℕ := bases p.base p.blocks

/-- Where the headers are. -/
def marks : List ℕ := bases p.base p.row

/-- Where the free buffers start. -/
def free : List ℕ := frees p.base p.blocks

theorem marks_eq : p.marks = p.heads ++ [p.top] := by
  simp [marks, row, heads, top, bases]

variable {p} {s : ℕ}

theorem heads_subset (h : s ∈ p.heads) : s ∈ p.marks := by
  rw [marks_eq]
  exact List.mem_append_left _ h

theorem free_subset (h : s ∈ p.free) : s ∈ p.heads := frees_subset h

theorem base_le (h : s ∈ p.marks) : p.base ≤ s := le_of_mem_bases h

theorem le_top (h : s ∈ p.marks) : s ≤ p.top := by
  rw [marks_eq, List.mem_append, List.mem_singleton] at h
  rcases h with h | rfl
  · obtain ⟨xs, b, ys, hbs, rfl⟩ := mem_bases.mp h
    rw [top, hbs, extent_append]
    omega
  · exact le_rfl

end Pool

/-- Where the header of a buffer or of a sentinel is. -/
def Mark (pools : List Pool) (s : ℕ) : Prop := ∃ p ∈ pools, s ∈ p.marks

theorem Mark.intro {pools : List Pool} {p : Pool} {s : ℕ} (hp : p ∈ pools) (hs : s ∈ bases p.base p.row) :
    Mark pools s := ⟨p, hp, by rwa [Pool.marks]⟩

/-- Where links can be: in a buffer, or in the head of the free list. -/
def Node (fl : ℕ) (pools : List Pool) (n : ℕ) : Prop := n = fl ∨ ∃ p ∈ pools, n ∈ p.heads

/-- `b` is a buffer in use that starts at `s`. -/
def Used (pools : List Pool) (s : ℕ) (b : Chunk) : Prop :=
  ∃ p ∈ pools, ∃ xs ys, p.blocks = xs ++ b :: ys ∧ b.free = false ∧ s = p.base + extent xs

/-- The pools and the head of the free list lie apart, and the numbers that occur fit in a `bufsize`. -/
structure Layout (fl : ℕ) (pools : List Pool) : Prop where
  roomy : ∀ p ∈ pools, ∀ b ∈ p.blocks, 16 ≤ b.size
  base_pos : ∀ p ∈ pools, 0 < p.base
  small : ∀ p ∈ pools, extent p.blocks < 2 ^ 31
  top_le : ∀ p ∈ pools, p.top + 8 ≤ 2 ^ 32
  apart : pools.Pairwise fun p q => p.top + 8 ≤ q.base ∨ q.top + 8 ≤ p.base
  head_apart : ∀ p ∈ pools, p.top + 8 ≤ fl ∨ fl + 16 ≤ p.base
  head_le : fl + 16 ≤ 2 ^ 32

/-- The memory `m` holds a heap of these pools. -/
structure Heap (m : Mem) (fl : ℕ) (pools : List Pool) : Prop extends Layout fl pools where
  laid : ∀ p ∈ pools, Laid (tags m) 0 p.base p.row
  ring : ∃ xs, (links m).IsRing fl xs ∧ xs.Perm (pools.flatMap Pool.free)

/-- A place in a pool: the other pools, and the buffers of the pool below and above the place. -/
structure Place where
  before : List Pool
  after : List Pool
  base : ℕ
  below : List Chunk
  above : List Chunk

/-- The pool with the buffers `ms` at the place. -/
def Place.pool (v : Place) (ms : List Chunk) : Pool := ⟨v.base, v.below ++ ms ++ v.above⟩

/-- All pools, with the buffers `ms` at the place. -/
def Place.pools (v : Place) (ms : List Chunk) : List Pool := v.before ++ v.pool ms :: v.after

/-- The address of the place. -/
def Place.start (v : Place) : ℕ := v.base + extent v.below

/-- The bytes that the allocator relies on. -/
def Admin (fl : ℕ) (pools : List Pool) (i : ℕ) : Prop :=
  (∃ s, Mark pools s ∧ s ≤ i ∧ i < s + 8) ∨
    ∃ n, (n = fl ∨ ∃ p ∈ pools, n ∈ p.free) ∧ n + 8 ≤ i ∧ i < n + 16

variable {m m' : Mem} {fl s u n i : ℕ} {p q : Pool} {pools : List Pool} {v : Place} {b e : Chunk}
  {xs ys zs ms ms' : List Chunk} {fs : List ℕ}

/-! ## Places -/

namespace Layout

variable (h : Layout fl pools)
include h

theorem eq_or_apart (hp : p ∈ pools) (hq : q ∈ pools) : p = q ∨ p.top + 8 ≤ q.base ∨ q.top + 8 ≤ p.base := by
  let R (p q : Pool) : Prop := p = q ∨ p.top + 8 ≤ q.base ∨ q.top + 8 ≤ p.base
  have hpair : pools.Pairwise R := h.apart.imp fun h => Or.inr h
  have hflip : pools.Pairwise (flip R) := h.apart.imp fun h => Or.inr h.symm
  exact hpair.forall_of_forall_of_flip (fun p _ => (Or.inl rfl : R p p)) hflip hp hq

/-- Headers of one pool start at least 16 bytes apart. -/
theorem marks_apart (hp : p ∈ pools) (hs : s ∈ p.marks) (hu : u ∈ p.marks) :
    s = u ∨ s + 16 ≤ u ∨ u + 16 ≤ s := by
  let R (s u : ℕ) : Prop := s = u ∨ s + 16 ≤ u ∨ u + 16 ≤ s
  have hle : p.marks.Pairwise fun s u => s + 16 ≤ u := bases_apart (h.roomy p hp)
  have hpair : p.marks.Pairwise R := hle.imp fun h => Or.inr (.inl h)
  have hflip : p.marks.Pairwise (flip R) := hle.imp fun h => Or.inr (.inr h)
  exact hpair.forall_of_forall_of_flip (fun s _ => (Or.inl rfl : R s s)) hflip hs hu

theorem head_add_le (hp : p ∈ pools) (hs : s ∈ p.heads) : s + 16 ≤ p.top := by
  obtain ⟨xs, b, ys, hbs, rfl⟩ := mem_bases.mp hs
  have hb := h.roomy p hp b (by simp [hbs])
  simp only [Pool.top, hbs, extent_append, extent_cons]
  omega

theorem header_header (hs : Mark pools s) (hu : Mark pools u) : s = u ∨ s + 8 ≤ u ∨ u + 8 ≤ s := by
  obtain ⟨p, hp, hs⟩ := hs
  obtain ⟨q, hq, hu⟩ := hu
  have hs' := Pool.base_le hs
  have hs'' := Pool.le_top hs
  have hu' := Pool.base_le hu
  have hu'' := Pool.le_top hu
  rcases h.eq_or_apart hp hq with rfl | hpq
  · have hap := h.marks_apart hp hs hu
    omega
  · omega

theorem header_links (hs : Mark pools s) (hn : Node fl pools n) : s ≤ n ∨ n + 16 ≤ s := by
  obtain ⟨p, hp, hs⟩ := hs
  have hs' := Pool.base_le hs
  have hs'' := Pool.le_top hs
  rcases hn with rfl | ⟨q, hq, hn⟩
  · have hfl := h.head_apart p hp
    omega
  · have hn' := Pool.base_le (Pool.heads_subset hn)
    have hn'' := h.head_add_le hq hn
    rcases h.eq_or_apart hp hq with rfl | hpq
    · have hap := h.marks_apart hp hs (Pool.heads_subset hn)
      omega
    · omega

theorem links_links (hs : Node fl pools s) (hn : Node fl pools n) : s = n ∨ s + 16 ≤ n ∨ n + 16 ≤ s := by
  rcases hs with rfl | ⟨p, hp, hs⟩
  · rcases hn with rfl | ⟨q, hq, hn⟩
    · exact .inl rfl
    · have hfl := h.head_apart q hq
      have hn' := Pool.base_le (Pool.heads_subset hn)
      have hn'' := h.head_add_le hq hn
      omega
  · have hs' := Pool.base_le (Pool.heads_subset hs)
    have hs'' := h.head_add_le hp hs
    rcases hn with rfl | ⟨q, hq, hn⟩
    · have hfl := h.head_apart p hp
      omega
    · have hn' := Pool.base_le (Pool.heads_subset hn)
      have hn'' := h.head_add_le hq hn
      rcases h.eq_or_apart hp hq with rfl | hpq
      · exact h.marks_apart hp (Pool.heads_subset hs) (Pool.heads_subset hn)
      · omega

theorem mark_lt (hs : Mark pools s) : 0 < s ∧ s + 8 ≤ 2 ^ 32 := by
  obtain ⟨p, hp, hs⟩ := hs
  have hs' := Pool.base_le hs
  have hs'' := Pool.le_top hs
  have hbase := h.base_pos p hp
  have htop := h.top_le p hp
  omega

theorem node_lt (hn : Node fl pools n) : n + 16 ≤ 2 ^ 32 := by
  rcases hn with rfl | ⟨q, hq, hn⟩
  · exact h.head_le
  · have hn' := h.head_add_le hq hn
    have htop := h.top_le q hq
    omega

/-- A pool may be exchanged for one that fills the same place. -/
theorem set {P Q : List Pool} {p' : Pool} (hpools : pools = P ++ p :: Q) (hbase : p'.base = p.base)
    (htop : p'.top = p.top) (hroomy : ∀ b ∈ p'.blocks, 16 ≤ b.size) : Layout fl (P ++ p' :: Q) := by
  subst hpools
  have hmem : p ∈ P ++ p :: Q := by simp
  have hext : extent p'.blocks = extent p.blocks := by
    rw [Pool.top, Pool.top, hbase] at htop
    omega
  -- every condition but `apart` is about one pool
  have hall {R : Pool → Prop} (hR : ∀ q ∈ P ++ p :: Q, R q) (hp' : R p → R p') : ∀ q ∈ P ++ p' :: Q, R q := by
    intro q hq
    rcases List.mem_append.mp hq with hq | hq
    · exact hR q (by simp [hq])
    · rcases List.mem_cons.mp hq with rfl | hq
      · exact hp' (hR p hmem)
      · exact hR q (by simp [hq])
  refine ⟨hall h.roomy fun _ => hroomy, hall h.base_pos fun h => hbase ▸ h, hall h.small fun h => hext ▸ h,
    hall h.top_le fun h => htop ▸ h, ?_, hall h.head_apart fun h => by rwa [hbase, htop], h.head_le⟩
  have hap := h.apart
  rw [List.pairwise_append, List.pairwise_cons] at hap ⊢
  obtain ⟨hP, ⟨hpQ, hQ⟩, hPpQ⟩ := hap
  refine ⟨hP, ⟨fun q hq => by rw [hbase, htop]; exact hpQ q hq, hQ⟩, fun q hq r hr => ?_⟩
  rcases List.mem_cons.mp hr with rfl | hr
  · rw [hbase, htop]
    exact hPpQ q hq p (by simp)
  · exact hPpQ q hq r (by simp [hr])

end Layout

/-! ## The free list -/

theorem node_of_mem_ring (hr : fs.Perm (pools.flatMap Pool.free)) (hn : n ∈ fl :: fs) : Node fl pools n := by
  rcases List.mem_cons.mp hn with rfl | hn
  · exact .inl rfl
  · obtain ⟨p, hp, hn⟩ := List.mem_flatMap.mp (hr.mem_iff.mp hn)
    exact .inr ⟨p, hp, Pool.free_subset hn⟩

/-- The free list is shorter than the memory. -/
theorem Layout.length_lt (h : Layout fl pools) (hr : (links m).IsRing fl fs)
    (hperm : fs.Perm (pools.flatMap Pool.free)) :
    fs.length < 2 ^ 32 := by
  have hsub : (fl :: fs).toFinset ⊆ Finset.range (2 ^ 32) := by
    intro n hn
    have hlt := h.node_lt (node_of_mem_ring hperm (List.mem_toFinset.mp hn))
    rw [Finset.mem_range]
    omega
  have hcard := Finset.card_le_card hsub
  rw [List.toFinset_card_of_nodup hr.nodup, Finset.card_range, List.length_cons] at hcard
  omega

theorem linked_of_mem (hr : (links m).IsRing fl fs) (hn : n ∈ fl :: fs) : Linked m n :=
  ⟨hr.next_prev hn, hr.prev_next hn⟩

section

variable {as bs : List ℕ} (h : Layout fl pools)
include h

/-! ### Taking a buffer off the list -/

section

variable (hr : (links m).IsRing fl (as ++ n :: bs)) (hnode : ∀ k ∈ fl :: (as ++ n :: bs), Node fl pools k)
include hr hnode

/-- Both writes go to the neighbours, and none of them changes what is read for the other. -/
theorem dechain_eq :
    dechain m n = setBlink (setFlink m (blink m n) (flink m n)) (flink m n) (blink m n) := by
  have hn : n ∈ fl :: (as ++ n :: bs) := by simp
  have hprev : blink m n ∈ fl :: (as ++ n :: bs) := hr.prev_mem hn
  have hsep := h.links_links (hnode n hn) (hnode _ hprev)
  have hne : n ≠ blink m n := by
    intro heq
    have hseg := (Links.seg_append.mp hr.seg).1.prev_mem
    have hnd := hr.nodup
    rw [← List.cons_append, List.nodup_append] at hnd
    exact hnd.2.2 _ hseg n (by simp) heq.symm
  have hfn : flink (setFlink m (blink m n) (flink m n)) n = flink m n := by
    rw [flink_setFlink hsep flink_lt, if_neg hne]
  have hbn : blink (setFlink m (blink m n) (flink m n)) n = blink m n := blink_setFlink hsep
  rw [dechain, hfn, hbn]

/-- The links are unlinked as in any list; those of `n` itself do not matter any more. -/
theorem dechain_ring : (links (dechain m n)).IsRing fl (as ++ bs) := by
  have hn : n ∈ fl :: (as ++ n :: bs) := by simp
  have hprev : blink m n ∈ fl :: (as ++ n :: bs) := hr.prev_mem hn
  have hnext : flink m n ∈ fl :: (as ++ n :: bs) := hr.next_mem hn
  have hsep : ∀ k ∈ fl :: (as ++ bs), ∀ j ∈ fl :: (as ++ n :: bs), k = j ∨ k + 16 ≤ j ∨ j + 16 ≤ k :=
    fun k hk j hj => h.links_links (hnode k (by simp at hk ⊢; tauto)) (hnode j hj)
  have hnd : n ∉ fl :: (as ++ bs) := by
    have hmid := hr.nodup
    rw [← List.cons_append, List.nodup_middle] at hmid
    exact (List.nodup_cons.mp hmid).1
  refine hr.unlink_append.congr (fun k hk => ?_) fun k hk => ?_
  · have hkn : k ≠ n := fun heq => hnd (heq ▸ hk)
    have hstep : flink (dechain m n) k = if k = blink m n then flink m n else flink m k := by
      rw [dechain_eq h hr hnode, flink_setBlink (hsep k hk _ hnext), flink_setFlink (hsep k hk _ hprev) flink_lt]
    rw [Links.unlink_next, if_neg hkn]
    exact hstep
  · have hkn : k ≠ n := fun heq => hnd (heq ▸ hk)
    have hstep : blink (dechain m n) k = if k = flink m n then blink m n else blink m k := by
      rw [dechain_eq h hr hnode, blink_setBlink (hsep k hk _ hnext) blink_lt, blink_setFlink (hsep k hk _ hprev)]
    rw [Links.unlink_prev, if_neg hkn]
    exact hstep

/-- The headers stay as they are. -/
theorem dechain_tags (hs : Mark pools s) :
    prevfree (dechain m n) s = prevfree m s ∧ bsize (dechain m n) s = bsize m s := by
  have hprev := h.header_links hs (hnode (blink m n) (hr.prev_mem (by simp)))
  have hnext := h.header_links hs (hnode (flink m n) (hr.next_mem (by simp)))
  rw [dechain_eq h hr hnode, prevfree_setBlink hnext, prevfree_setFlink hprev, bsize_setBlink hnext,
    bsize_setFlink hprev]
  exact ⟨rfl, rfl⟩

theorem dechain_frame (hi : ∀ k ∈ fl :: (as ++ n :: bs), i < k + 8 ∨ k + 16 ≤ i) : dechain m n i = m i := by
  have hprev := hi (blink m n) (hr.prev_mem (by simp))
  have hnext := hi (flink m n) (hr.next_mem (by simp))
  rw [dechain_eq h hr hnode, setBlink, set32_frame (by omega), setFlink, set32_frame (by omega)]

end

/-! ### Putting a buffer on the list -/

section

variable (hr : (links m).IsRing fl fs) (hnode : ∀ k ∈ fl :: fs, Node fl pools k) (hn : Node fl pools n)
  (hnew : n ∉ fl :: fs)
include hr hnode hn hnew

omit hr hnode in
theorem enchain_eq : enchain m fl n =
    setFlink (setBlink (setBlink (setFlink m n fl) n (blink m fl)) fl n) (blink m fl) n := by
  have hflnode : Node fl pools fl := .inl rfl
  have hnfl : n ≠ fl := fun heq => hnew (by simp [heq])
  have hlt := h.node_lt hn
  have hflm : blink (setFlink m n fl) fl = blink m fl := blink_setFlink (h.links_links hflnode hn)
  have htm : blink (setBlink (setBlink (setFlink m n fl) n (blink m fl)) fl n) n = blink m fl := by
    rw [blink_setBlink (h.links_links hn hflnode) (by omega), if_neg hnfl, blink_setBlink (.inl rfl) blink_lt,
      if_pos rfl]
  simp only [enchain, hflm]
  rw [htm]

/-- The buffer stands at the end of the free list. -/
theorem enchain_ring : (links (enchain m fl n)).IsRing fl (fs ++ [n]) := by
  have hprev : Node fl pools (blink m fl) := hnode _ (hr.prev_mem (by simp))
  have hflnode : Node fl pools fl := .inl rfl
  have hlt := h.node_lt hn
  have hfllt := h.head_le
  have htn : blink m fl ≠ n := fun heq => hnew (heq ▸ hr.prev_mem (by simp))
  have hmem : ∀ k ∈ fl :: (fs ++ [n]), Node fl pools k := by
    intro k hk
    rcases List.mem_append.mp (by simpa using hk : k ∈ (fl :: fs) ++ [n]) with hk | hk
    · exact hnode k hk
    · exact List.mem_singleton.mp hk ▸ hn
  refine (hr.insertBefore hnew).congr (fun k hk => ?_) fun k hk => ?_
  · have hk := hmem k hk
    have hstep : flink (enchain m fl n) k = if k = blink m fl then n else if k = n then fl else flink m k := by
      rw [enchain_eq h hn hnew, flink_setFlink (h.links_links hk hprev) (by omega),
        flink_setBlink (h.links_links hk hflnode), flink_setBlink (h.links_links hk hn),
        flink_setFlink (h.links_links hk hn) (by omega)]
    have hprevdef : (links m).prev fl = blink m fl := rfl
    rw [Links.insertBefore_next, hprevdef]
    refine hstep.trans ?_
    by_cases hkn : k = n
    · rw [hkn, if_neg htn.symm, if_pos rfl, if_pos rfl]
    · rw [if_neg hkn, if_neg hkn]
      rfl
  · have hk := hmem k hk
    have hstep : blink (enchain m fl n) k = if k = fl then n else if k = n then blink m fl else blink m k := by
      rw [enchain_eq h hn hnew, blink_setFlink (h.links_links hk hprev),
        blink_setBlink (h.links_links hk hflnode) (by omega), blink_setBlink (h.links_links hk hn) blink_lt,
        blink_setFlink (h.links_links hk hn)]
    rw [Links.insertBefore_prev]
    exact hstep

theorem enchain_tags (hs : Mark pools s) :
    prevfree (enchain m fl n) s = prevfree m s ∧ bsize (enchain m fl n) s = bsize m s := by
  have hprev := h.header_links hs (hnode (blink m fl) (hr.prev_mem (by simp)))
  have hfl := h.header_links hs (.inl rfl : Node fl pools fl)
  have hsn := h.header_links hs hn
  rw [enchain_eq h hn hnew, prevfree_setFlink hprev, prevfree_setBlink hfl, prevfree_setBlink hsn,
    prevfree_setFlink hsn, bsize_setFlink hprev, bsize_setBlink hfl, bsize_setBlink hsn, bsize_setFlink hsn]
  exact ⟨rfl, rfl⟩

omit hnode in
theorem enchain_frame (hi : ∀ k ∈ fl :: fs, i < k + 8 ∨ k + 16 ≤ i) (hin : i < n + 8 ∨ n + 16 ≤ i) :
    enchain m fl n i = m i := by
  have hprev := hi (blink m fl) (hr.prev_mem (by simp))
  have hfl := hi fl (by simp)
  rw [enchain_eq h hn hnew, setFlink, set32_frame (by omega), setBlink, set32_frame (by omega), setBlink,
    set32_frame (by omega), setFlink, set32_frame (by omega)]

end

end

/-! ## What the heap rests on -/

/-- A heap rests on the bytes of the allocator alone. -/
theorem Heap.congr (h : Heap m fl pools) (hsame : ∀ i, Admin fl pools i → m' i = m i) : Heap m' fl pools := by
  have hmark : ∀ s, Mark pools s → prevfree m' s = prevfree m s ∧ bsize m' s = bsize m s := by
    intro s hs
    have hbyte : ∀ i, s ≤ i → i < s + 8 → m' i = m i := fun i h₁ h₂ => hsame i (.inl ⟨s, hs, h₁, h₂⟩)
    constructor
    · rw [prevfree, getSize, Mem.get32, Mem.readLE_congr fun i h₁ h₂ => hbyte i h₁ (by omega)]
      rfl
    · rw [bsize, getSize, Mem.get32, Mem.readLE_congr fun i h₁ h₂ => hbyte i (by omega) (by omega)]
      rfl
  obtain ⟨fs, hr, hperm⟩ := h.ring
  have hlink : ∀ k ∈ fl :: fs, flink m' k = flink m k ∧ blink m' k = blink m k := by
    intro k hk
    have hbyte : ∀ i, k + 8 ≤ i → i < k + 16 → m' i = m i := by
      intro i h₁ h₂
      refine hsame i (.inr ⟨k, ?_, h₁, h₂⟩)
      rcases List.mem_cons.mp hk with rfl | hk
      · exact .inl rfl
      · exact .inr (List.mem_flatMap.mp (hperm.mem_iff.mp hk))
    constructor
    · rw [flink, Mem.get32, Mem.readLE_congr fun i h₁ h₂ => hbyte i h₁ (by omega)]
      rfl
    · rw [blink, Mem.get32, Mem.readLE_congr fun i h₁ h₂ => hbyte i (by omega) (by omega)]
      rfl
  refine { h with laid := fun p hp => ?_, ring := ⟨fs, ?_, hperm⟩ }
  · refine (h.laid p hp).congr (fun s hs => ?_) fun s hs => ?_
    · rw [tags_back, tags_back, (hmark s (.intro hp hs)).1]
    · rw [tags_size, tags_size, (hmark s (.intro hp hs)).2]
  · exact hr.congr (fun k hk => (hlink k hk).1) fun k hk => (hlink k hk).2

/-! ## Changing a place -/

namespace Place

theorem pool_mem : v.pool ms ∈ v.pools ms := by
  simp [pools]

theorem mem_pools : p ∈ v.pools ms ↔ p = v.pool ms ∨ p ∈ v.before ∨ p ∈ v.after := by
  rw [pools, List.mem_append, List.mem_cons]
  tauto

/-- Some header follows behind the place. -/
theorem exists_next (v : Place) : ∃ e zs, v.above ++ [sentinel] = e :: zs := by
  cases v.above with
  | nil => exact ⟨sentinel, [], rfl⟩
  | cons y ys => exact ⟨y, ys ++ [sentinel], rfl⟩

theorem pool_row (hnext : v.above ++ [sentinel] = e :: zs) : (v.pool ms).row = v.below ++ ms ++ e :: zs := by
  rw [Pool.row, pool, List.append_assoc, hnext]

theorem pool_top : (v.pool ms).top = v.base + (extent v.below + extent ms + extent v.above) := by
  rw [Pool.top, pool, extent_append, extent_append]

/-- The free buffers of all pools, around the place. -/
theorem free_pools : (v.pools ms).flatMap Pool.free =
    (v.before.flatMap Pool.free ++ frees v.base v.below) ++ frees v.start ms ++
      (frees (v.start + extent ms) v.above ++ v.after.flatMap Pool.free) := by
  simp [pools, pool, start, Pool.free, Nat.add_assoc]

/-- The header behind the place. -/
theorem mark_behind : Mark (v.pools ms) (v.start + extent ms) := by
  obtain ⟨e, zs, hnext⟩ := v.exists_next
  refine .intro pool_mem ?_
  rw [pool_row hnext]
  refine mem_bases.mpr ⟨v.below ++ ms, e, zs, rfl, ?_⟩
  rw [start, pool, extent_append, Nat.add_assoc]

/-- The buffers at the place start at their headers. -/
theorem node_mid (xs : List Chunk) (hcut : ms = xs ++ b :: ys) : Node fl (v.pools ms) (v.start + extent xs) := by
  refine .inr ⟨v.pool ms, pool_mem, mem_bases.mpr ⟨v.below ++ xs, b, ys ++ v.above, ?_, ?_⟩⟩
  · simp [pool, hcut]
  · rw [start, pool, extent_append, Nat.add_assoc]

theorem mark_mid (xs : List Chunk) (hcut : ms = xs ++ b :: ys) : Mark (v.pools ms) (v.start + extent xs) := by
  refine ⟨v.pool ms, pool_mem, Pool.heads_subset (mem_bases.mpr ⟨v.below ++ xs, b, ys ++ v.above, ?_, ?_⟩)⟩
  · simp [pool, hcut]
  · rw [start, pool, extent_append, Nat.add_assoc]

/-- Fewer buffers at the place have fewer headers. -/
theorem mark_mono (hext : extent ms' = extent ms) (hsub : ∀ s ∈ bases v.start ms', s ∈ bases v.start ms)
    (hu : Mark (v.pools ms') u) : Mark (v.pools ms) u := by
  obtain ⟨p, hp, hu⟩ := hu
  rcases mem_pools.mp hp with rfl | hp
  · refine ⟨v.pool ms, pool_mem, ?_⟩
    rw [start] at hsub
    rw [Pool.marks_eq, Pool.heads, pool_top, pool, bases_append, bases_append, extent_append] at hu ⊢
    rw [hext] at hu
    simp only [List.mem_append] at hu ⊢
    rcases hu with ((hu | hu) | hu) | hu
    · exact .inl (.inl (.inl hu))
    · exact .inl (.inl (.inr (hsub u hu)))
    · exact .inl (.inr hu)
    · exact .inr hu
  · exact ⟨p, mem_pools.mpr (.inr hp), hu⟩

end Place

namespace Layout

variable (h : Layout fl (v.pools ms))
include h

/-- The numbers at a place. -/
theorem place_lt : extent v.below + extent ms + extent v.above < 2 ^ 31 ∧
    v.start + extent ms + 8 ≤ 2 ^ 32 ∧ 0 < v.start := by
  have hsmall := h.small _ Place.pool_mem
  have htop := h.top_le _ Place.pool_mem
  have hbase := h.base_pos _ Place.pool_mem
  rw [Place.pool, extent_append, extent_append] at hsmall
  rw [Place.pool_top] at htop
  have hbase' : 0 < v.base := hbase
  rw [Place.start]
  omega

/-- The other pools lie apart. -/
theorem place_apart (hq : q ∈ v.before ∨ q ∈ v.after) :
    (v.pool ms).top + 8 ≤ q.base ∨ q.top + 8 ≤ v.base := by
  have hap := h.apart
  rw [Place.pools, List.pairwise_append, List.pairwise_cons] at hap
  rcases hq with hq | hq
  · exact (hap.2.2 q hq _ (by simp)).symm
  · exact hap.2.1.1 q hq

theorem edit (hext : extent ms' = extent ms) (hroomy : ∀ b ∈ ms', 16 ≤ b.size) : Layout fl (v.pools ms') := by
  have hold := h.roomy _ Place.pool_mem
  refine h.set rfl rfl (by rw [Place.pool_top, Place.pool_top, hext]) fun b hb => ?_
  simp only [Place.pool, List.mem_append] at hb hold
  rcases hb with (hb | hb) | hb
  · exact hold b (.inl (.inl hb))
  · exact hroomy b hb
  · exact hold b (.inr hb)

end Layout

/-- The tags of the buffers at a place, and of the buffer behind them. -/
theorem Heap.mid (h : Heap m fl (v.pools ms)) (hnext : v.above ++ [sentinel] = e :: zs) :
    Laid (tags m) (backOf 0 v.below) v.start (ms ++ [e]) := by
  have hlaid := h.laid _ Place.pool_mem
  have hcut : v.below ++ ms ++ e :: zs = v.below ++ ((ms ++ [e]) ++ zs) := by simp
  rw [Place.pool_row hnext, hcut, laid_append, laid_append] at hlaid
  exact hlaid.2.1

/-- The buffers at a place are exchanged for others that fill it too. The tags may change from the first of them
up to the buffer behind them. -/
theorem Heap.edit (h : Heap m fl (v.pools ms)) (fs : List ℕ) (hnext : v.above ++ [sentinel] = e :: zs)
    (hext : extent ms' = extent ms) (hroomy : ∀ b ∈ ms', 16 ≤ b.size)
    (hmid : Laid (tags m') (backOf 0 v.below) v.start (ms' ++ [e]))
    (hrest : ∀ s, Mark (v.pools ms') s → s < v.start ∨ v.start + extent ms < s →
      prevfree m' s = prevfree m s ∧ bsize m' s = bsize m s)
    (hring : (links m').IsRing fl fs) (hperm : fs.Perm ((v.pools ms').flatMap Pool.free)) :
    Heap m' fl (v.pools ms') := by
  have hlayout := h.toLayout.edit hext hroomy
  have hold := h.roomy _ Place.pool_mem
  have hepos : 0 < e.size := by
    have he : e ∈ v.above ++ [sentinel] := by simp [hnext]
    rcases List.mem_append.mp he with he | he
    · have := hold e (by simp [Place.pool, he])
      omega
    · rw [List.mem_singleton.mp he]
      decide
  refine { hlayout with laid := fun q hq => ?_, ring := ⟨fs, hring, hperm⟩ }
  rcases Place.mem_pools.mp hq with rfl | hq'
  · have hlaid := h.laid _ Place.pool_mem
    rw [Place.pool_row hnext] at hlaid ⊢
    refine hlaid.edit hext hmid (fun s hs => ?_) fun s hs => ?_
    · rw [tags_back, tags_back, tags_size, tags_size]
      refine hrest s (.intro hq ?_) (.inl (lt_of_mem_bases (fun b hb => ?_) hs))
      · rw [Place.pool_row hnext, bases_append, bases_append]
        exact List.mem_append_left _ (List.mem_append_left _ hs)
      · have := hold b (by simp [Place.pool, hb])
        omega
    · rw [tags_back, tags_back, tags_size, tags_size]
      refine hrest s (.intro hq ?_) (.inr ?_)
      · have hs' : s ∈ bases (v.base + (extent v.below + (extent ms + e.size))) zs := by
          simpa [Place.pool, Nat.add_assoc] using hs
        rw [Place.pool_row hnext]
        simp [Place.pool, bases, hext, Nat.add_assoc, hs']
      · have hle := le_of_mem_bases hs
        simp only [Place.pool, extent_append, extent_cons, extent_nil] at hle
        rw [Place.start]
        omega
  · have hfar : ∀ s ∈ bases q.base q.row, prevfree m' s = prevfree m s ∧ bsize m' s = bsize m s := by
      intro s hs
      refine hrest s (.intro hq hs) ?_
      rw [← Pool.marks] at hs
      have hap := h.toLayout.place_apart hq'
      have hlo := Pool.base_le hs
      have hhi := Pool.le_top hs
      rw [Place.pool_top] at hap
      rw [Place.start]
      omega
    refine (h.laid q (Place.mem_pools.mpr (.inr hq'))).congr (fun s hs => ?_) fun s hs => ?_
    · rw [tags_back, tags_back, (hfar s hs).1]
    · rw [tags_size, tags_size, (hfar s hs).2]

/-! ## The buffers in use -/

theorem used_iff_mem : Used pools s b ↔ (s, b) ∈ pools.flatMap fun p => busy p.base p.blocks := by
  rw [List.mem_flatMap]
  exact exists_congr fun p => and_congr_right fun _ => mem_busy.symm

/-- The buffers in use of all pools, around a place. -/
theorem busy_pools : ((v.pools ms).flatMap fun p => busy p.base p.blocks) =
    ((v.before.flatMap fun p => busy p.base p.blocks) ++ busy v.base v.below) ++ busy v.start ms ++
      (busy (v.start + extent ms) v.above ++ v.after.flatMap fun p => busy p.base p.blocks) := by
  simp [Place.pools, Place.pool, Place.start, Nat.add_assoc]

theorem used_iff : Used pools s b ↔ ∃ v : Place, pools = v.pools [b] ∧ b.free = false ∧ s = v.start := by
  constructor
  · rintro ⟨p, hp, xs, ys, hblocks, hbusy, rfl⟩
    obtain ⟨P, Q, rfl⟩ := List.append_of_mem hp
    refine ⟨⟨P, Q, p.base, xs, ys⟩, ?_, hbusy, rfl⟩
    cases p
    simp_all [Place.pools, Place.pool]
  · rintro ⟨v, rfl, hbusy, rfl⟩
    exact ⟨v.pool [b], Place.pool_mem, v.below, v.above, by simp [Place.pool], hbusy, rfl⟩

theorem exists_place_of_free (hs : s ∈ pools.flatMap Pool.free) :
    ∃ (v : Place) (n : ℕ), pools = v.pools [⟨n, true⟩] ∧ s = v.start := by
  obtain ⟨p, hp, hs⟩ := List.mem_flatMap.mp hs
  obtain ⟨xs, b, ys, hblocks, hfree, rfl⟩ := mem_frees.mp hs
  obtain ⟨P, Q, rfl⟩ := List.append_of_mem hp
  refine ⟨⟨P, Q, p.base, xs, ys⟩, b.size, ?_, rfl⟩
  cases p
  cases b
  simp_all [Place.pools, Place.pool]

/-- No other header lies in a buffer. -/
theorem Layout.block_apart (h : Layout fl pools) (hp : p ∈ pools) (hblocks : p.blocks = xs ++ b :: ys)
    (hu : Mark pools u) (hne : u ≠ p.base + extent xs) :
    u < p.base + extent xs ∨ p.base + extent xs + b.size ≤ u := by
  obtain ⟨q, hq, hu⟩ := hu
  rcases h.eq_or_apart hp hq with rfl | hap
  · rw [Pool.marks, Pool.row, hblocks] at hu
    obtain ⟨us, c, vs, hcut, rfl⟩ := mem_bases.mp hu
    rw [List.append_assoc, List.cons_append] at hcut
    by_cases hlt : extent xs < extent us
    · have hle := end_le_of_lt hcut hlt
      omega
    · omega
  · have hlo := Pool.base_le hu
    have hhi := Pool.le_top hu
    simp only [Pool.top, hblocks, extent_append, extent_cons] at hap hhi
    omega

/-- Buffers in use do not overlap. -/
theorem Layout.used_apart (h : Layout fl pools) (hb : Used pools s b) (he : Used pools u e) (hne : s ≠ u) :
    s + b.size ≤ u ∨ u + e.size ≤ s := by
  obtain ⟨p, hp, xs, ys, hblocks, -, rfl⟩ := hb
  obtain ⟨q, hq, us, vs, hblocks', -, rfl⟩ := he
  have hs : Mark pools (p.base + extent xs) := ⟨p, hp, Pool.heads_subset (mem_bases.mpr ⟨xs, b, ys, hblocks, rfl⟩)⟩
  have hu : Mark pools (q.base + extent us) := ⟨q, hq, Pool.heads_subset (mem_bases.mpr ⟨us, e, vs, hblocks', rfl⟩)⟩
  have h₁ := h.block_apart hp hblocks hu (Ne.symm hne)
  have h₂ := h.block_apart hq hblocks' hs hne
  omega

/-- A buffer in use is not on the free list. -/
theorem Layout.used_notMem (h : Layout fl pools) (hused : Used pools s b) : s ∉ pools.flatMap Pool.free := by
  intro hs
  obtain ⟨p, hp, xs, ys, hblocks, hbusy, rfl⟩ := hused
  obtain ⟨q, hq, hn⟩ := List.mem_flatMap.mp hs
  have hp' : p.base + extent xs ∈ p.heads := mem_bases.mpr ⟨xs, b, ys, hblocks, rfl⟩
  have hpq : p = q := by
    rcases h.eq_or_apart hp hq with hpq | hap
    · exact hpq
    · have hlo := Pool.base_le (Pool.heads_subset hp')
      have hhi := Pool.le_top (Pool.heads_subset hp')
      have hlo' := Pool.base_le (Pool.heads_subset (Pool.free_subset hn))
      have hhi' := Pool.le_top (Pool.heads_subset (Pool.free_subset hn))
      omega
  subst hpq
  obtain ⟨us, c, vs, hcut, hfree, hplace⟩ := mem_frees.mp hn
  have hext : extent xs = extent us := by omega
  rw [hblocks] at hcut
  have hpos : ∀ d ∈ xs ++ b :: ys, 0 < d.size := by
    intro d hd
    have := h.roomy p hp d (by rw [hblocks]; exact hd)
    omega
  obtain ⟨-, rfl, -⟩ := block_unique hpos hcut hext
  rw [hbusy] at hfree
  cases hfree

/-- In a free buffer, no buffer in use starts. -/
theorem Layout.not_inside (h : Layout fl (v.pools [⟨n, true⟩])) (hused : Used (v.pools [⟨n, true⟩]) u b) :
    u < v.start ∨ v.start + n ≤ u := by
  have hne : u ≠ v.start := by
    rintro rfl
    refine h.used_notMem hused ?_
    rw [Place.free_pools]
    simp [frees]
  obtain ⟨q, hq, us, vs, hblocks, -, rfl⟩ := hused
  have hu : Mark (v.pools [⟨n, true⟩]) (q.base + extent us) :=
    ⟨q, hq, Pool.heads_subset (mem_bases.mpr ⟨us, b, vs, hblocks, rfl⟩)⟩
  have hcut : (v.pool [⟨n, true⟩]).blocks = v.below ++ ⟨n, true⟩ :: v.above := by simp [Place.pool]
  exact h.block_apart Place.pool_mem hcut hu hne

/-- What a client owns, the allocator does not rely on. -/
theorem Layout.not_admin (h : Layout fl pools) (hused : Used pools s b) (hlo : s + 8 ≤ i) (hhi : i < s + b.size) :
    ¬ Admin fl pools i := by
  have hfree := h.used_notMem hused
  obtain ⟨p, hp, xs, ys, hblocks, hbusy, rfl⟩ := hused
  have hs : p.base + extent xs ∈ p.heads := mem_bases.mpr ⟨xs, b, ys, hblocks, rfl⟩
  have hmark : Mark pools (p.base + extent xs) := ⟨p, hp, Pool.heads_subset hs⟩
  rintro (⟨u, hu, h₁, h₂⟩ | ⟨n, hn, h₁, h₂⟩)
  · by_cases hne : u = p.base + extent xs
    · omega
    · have hap := h.block_apart hp hblocks hu hne
      have hhead := h.header_header hu hmark
      omega
  · rcases hn with rfl | ⟨q, hq, hn⟩
    · have hend : p.base + extent xs + b.size ≤ p.top := by
        simp only [Pool.top, hblocks, extent_append, extent_cons]
        omega
      have hfl := h.head_apart p hp
      omega
    · have hnode : Node fl pools n := .inr ⟨q, hq, Pool.free_subset hn⟩
      have hnmark : Mark pools n := ⟨q, hq, Pool.heads_subset (Pool.free_subset hn)⟩
      have hll := h.links_links hnode (.inr ⟨p, hp, hs⟩)
      have hne : n ≠ p.base + extent xs := by
        rintro rfl
        exact hfree (List.mem_flatMap.mpr ⟨q, hq, hn⟩)
      have hap := h.block_apart hp hblocks hnmark hne
      omega

/-- The allocator stays in the pools and the head of the free list. -/
theorem Layout.admin_region (h : Layout fl pools) (hi : Admin fl pools i) :
    (fl ≤ i ∧ i < fl + 16) ∨ ∃ p ∈ pools, p.base ≤ i ∧ i < p.top + 8 := by
  rcases hi with ⟨s, ⟨p, hp, hs⟩, h₁, h₂⟩ | ⟨n, rfl | ⟨p, hp, hn⟩, h₁, h₂⟩
  · have hlo := Pool.base_le hs
    have hhi := Pool.le_top hs
    exact .inr ⟨p, hp, by omega, by omega⟩
  · exact .inl ⟨by omega, by omega⟩
  · have hlo := Pool.base_le (Pool.heads_subset (Pool.free_subset hn))
    have hhi := h.head_add_le hp (Pool.free_subset hn)
    exact .inr ⟨p, hp, by omega, by omega⟩

end Shaunos.Mm.Bget
