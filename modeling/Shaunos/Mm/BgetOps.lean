import Shaunos.Mm.BgetHeap

/-!
# What `bget`, `brel` and `bpool` do to the heap

Reference: `Kernel/bget.c`.

* `bget_heap` — a request is served from the first of the smallest free buffers that are big enough, or fails
  when no free buffer is;
* `brel_heap` — a buffer that is given back joins its free neighbours;
* `bpool_heap` — a region becomes a pool that is one free buffer.
-/

namespace Shaunos.Mm.Bget

open BoundaryTag

variable {m m' : Mem} {fl s u n k i : ℕ} {p q : Pool} {pools : List Pool} {v : Place} {b e : Chunk}
  {xs ys zs ms ms' : List Chunk} {fs : List ℕ}

/-! ## Serving a request -/

/-- The tags of a free buffer. -/
theorem Heap.mid_free (h : Heap m fl (v.pools [⟨n, true⟩])) (hnext : v.above ++ [sentinel] = e :: zs) :
    prevfree m v.start = 0 ∧ bsize m v.start = n ∧ prevfree m (v.start + n) = n ∧ bsize m (v.start + n) = e.tag ∧
      backOf 0 v.below = 0 := by
  obtain ⟨hback, hsize, hzero, hback', hsize', -⟩ := h.mid hnext
  rw [tags_back] at hback hback'
  rw [tags_size] at hsize hsize'
  have hzero := hzero rfl
  rw [hzero] at hback
  exact ⟨hback, hsize, hback', hsize', hzero⟩

/-- A byte that the allocator does not rely on is in no header, -/
theorem out_of_header (hi : ¬ Admin fl pools i) (hu : Mark pools u) : i < u ∨ u + 8 ≤ i := by
  by_contra hin
  exact hi (.inl ⟨u, hu, by omega, by omega⟩)

/-- and in no link of the free list. -/
theorem out_of_links (hi : ¬ Admin fl pools i) (hperm : fs.Perm (pools.flatMap Pool.free)) (hn : n ∈ fl :: fs) :
    i < n + 8 ∨ n + 16 ≤ i := by
  by_contra hin
  refine hi (.inr ⟨n, ?_, by omega, by omega⟩)
  rcases List.mem_cons.mp hn with rfl | hn
  · exact .inl rfl
  · exact .inr (List.mem_flatMap.mp (hperm.mem_iff.mp hn))

theorem split_heap (h : Heap m fl (v.pools [⟨n, true⟩])) (hk : 16 ≤ k) (hkn : k + 16 < n) :
    ∃ m', split m v.start k = some (v.start + (n - k) + 8, m') ∧
      Heap m' fl (v.pools [⟨n - k, true⟩, ⟨k, false⟩]) ∧
      ∀ i, m' i = m i ∨ Admin fl (v.pools [⟨n - k, true⟩, ⟨k, false⟩]) i := by
  obtain ⟨e, zs, hnext⟩ := v.exists_next
  obtain ⟨hback, hsize, hback', hsize', hzero⟩ := h.mid_free hnext
  have hext : extent [⟨n - k, true⟩, ⟨k, false⟩] = extent [⟨n, true⟩] := by
    simp only [extent_cons, extent_nil]
    omega
  have hroomy : ∀ b ∈ [(⟨n - k, true⟩ : Chunk), ⟨k, false⟩], 16 ≤ b.size := by
    simp only [List.mem_cons, List.not_mem_nil, or_false, forall_eq_or_imp, forall_eq]
    omega
  have hlay := h.toLayout.edit hext hroomy
  obtain ⟨hsmall, htop, -⟩ := h.toLayout.place_lt
  simp only [extent_cons, extent_nil] at hsmall htop
  -- the three headers that are written
  have hs : Mark (v.pools [⟨n - k, true⟩, ⟨k, false⟩]) v.start := Place.mark_mid [] rfl
  have hba : Mark (v.pools [⟨n - k, true⟩, ⟨k, false⟩]) (v.start + (n - k)) :=
    Place.mark_mid [⟨n - k, true⟩] rfl
  have hbn : Mark (v.pools [⟨n - k, true⟩, ⟨k, false⟩]) (v.start + n) := by
    rw [show v.start + n = v.start + extent [⟨n - k, true⟩, ⟨k, false⟩] by rw [hext]; rfl]
    exact Place.mark_behind
  have hcast : (n : ℤ) - k = ((n - k : ℕ) : ℤ) := by omega
  have haddr : addr v.start (n - k) = v.start + (n - k) := by
    rw [hcast, addr_add (by omega)]
  have haddr' : addr (v.start + (n - k)) k = v.start + n := by
    rw [addr_add (by omega)]
    omega
  have haddr'' : addr (v.start + (n - k)) 8 = v.start + (n - k) + 8 := addr_add (n := 8) (by omega)
  have hfit : bufsize ((n : ℤ) - k) = n - k := bufsize_of_lt (by omega) (by omega)
  have hfit' : bufsize (-(k : ℤ)) = -k := bufsize_of_lt (by omega) (by omega)
  have hzero' : bufsize 0 = 0 := bufsize_of_lt (by omega) (by omega)
  have hsplit : split m v.start k = some (v.start + (n - k) + 8,
      setPrevfree (setBsize (setPrevfree (setBsize m v.start (n - k)) (v.start + (n - k)) (n - k))
        (v.start + (n - k)) (-k)) (v.start + n) 0) := by
    simp only [split, hsize, haddr, haddr', haddr'', hback', if_true]
    rw [bsize_setBsize (.inl rfl), if_pos rfl, hfit]
  obtain ⟨fs, hr, hperm⟩ := h.ring
  have hfree : (v.pools [⟨n - k, true⟩, ⟨k, false⟩]).flatMap Pool.free = (v.pools [⟨n, true⟩]).flatMap Pool.free := by
    rw [Place.free_pools, Place.free_pools, hext]
    rfl
  -- what the four writes leave
  have hprevs : ∀ u, Mark (v.pools [⟨n - k, true⟩, ⟨k, false⟩]) u →
      prevfree (setPrevfree (setBsize (setPrevfree (setBsize m v.start (n - k)) (v.start + (n - k)) (n - k))
        (v.start + (n - k)) (-k)) (v.start + n) 0) u =
        if u = v.start + n then 0 else if u = v.start + (n - k) then (n : ℤ) - k else prevfree m u := by
    intro u hu
    rw [prevfree_setPrevfree (hlay.header_header hu hbn), prevfree_setBsize (hlay.header_header hu hba),
      prevfree_setPrevfree (hlay.header_header hu hba), prevfree_setBsize (hlay.header_header hu hs), hfit, hzero']
  have hsizes : ∀ u, Mark (v.pools [⟨n - k, true⟩, ⟨k, false⟩]) u →
      bsize (setPrevfree (setBsize (setPrevfree (setBsize m v.start (n - k)) (v.start + (n - k)) (n - k))
        (v.start + (n - k)) (-k)) (v.start + n) 0) u =
        if u = v.start + (n - k) then -(k : ℤ) else if u = v.start then (n : ℤ) - k else bsize m u := by
    intro u hu
    rw [bsize_setPrevfree (hlay.header_header hu hbn), bsize_setBsize (hlay.header_header hu hba),
      bsize_setPrevfree (hlay.header_header hu hba), bsize_setBsize (hlay.header_header hu hs), hfit, hfit']
  refine ⟨_, hsplit, h.edit fs hnext hext hroomy ?_ (fun u hu hfar => ?_) ?_ ?_, fun i => ?_⟩
  · -- the tags of the two buffers, and of the buffer behind them
    have hend : v.start + (n - k) + k = v.start + n := by omega
    simp only [List.cons_append, List.nil_append, Laid, tags_back, tags_size, Chunk.tag, Chunk.back, hend, hzero]
    rw [hprevs _ hs, hprevs _ hba, hprevs _ hbn, hsizes _ hs, hsizes _ hba, hsizes _ hbn, hsize', hback]
    have hpos : n ≠ 0 := by omega
    have hlt : n - k ≠ 0 := by omega
    have hne : n ≠ n - k := by omega
    simp [hpos, hlt, hne, hne.symm, hcast, Chunk.tag]
  · simp only [extent_cons, extent_nil] at hfar
    rw [hprevs u hu, hsizes u hu, if_neg (by omega), if_neg (by omega), if_neg (by omega), if_neg (by omega)]
    exact ⟨rfl, rfl⟩
  · have hnode : ∀ j ∈ fl :: fs, Node fl (v.pools [⟨n - k, true⟩, ⟨k, false⟩]) j :=
      fun j hj => node_of_mem_ring (hfree ▸ hperm) hj
    refine hr.congr (fun j hj => ?_) fun j hj => ?_
    · have hj := hnode j hj
      rw [links_next, links_next, flink_setPrevfree (hlay.header_links hbn hj),
        flink_setBsize (hlay.header_links hba hj), flink_setPrevfree (hlay.header_links hba hj),
        flink_setBsize (hlay.header_links hs hj)]
    · have hj := hnode j hj
      rw [links_prev, links_prev, blink_setPrevfree (hlay.header_links hbn hj),
        blink_setBsize (hlay.header_links hba hj), blink_setPrevfree (hlay.header_links hba hj),
        blink_setBsize (hlay.header_links hs hj)]
  · rw [hfree]
    exact hperm
  · by_cases hi : Admin fl (v.pools [⟨n - k, true⟩, ⟨k, false⟩]) i
    · exact .inr hi
    · left
      have h₁ := out_of_header hi hs
      have h₂ := out_of_header hi hba
      have h₃ := out_of_header hi hbn
      rw [setPrevfree, setSize, set32_frame (by omega), setBsize, setSize, set32_frame (by omega), setPrevfree,
        setSize, set32_frame (by omega), setBsize, setSize, set32_frame (by omega)]

/-- Taking a buffer out of both lists. -/
theorem perm_of_middle {A B as bs : List ℕ} (h : (as ++ s :: bs).Perm (A ++ [s] ++ B)) : (as ++ bs).Perm (A ++ B) := by
  have hmid : (A ++ [s] ++ B).Perm (s :: (A ++ B)) := by simp
  exact (List.perm_middle.symm.trans (h.trans hmid)).cons_inv

theorem mem_middle {as bs : List ℕ} (h : n ∈ fl :: (as ++ bs)) : n ∈ fl :: (as ++ s :: bs) := by
  simp only [List.mem_cons, List.mem_append] at h ⊢
  tauto

theorem giveWhole_heap (h : Heap m fl (v.pools [⟨n, true⟩])) :
    ∃ m', giveWhole m v.start = some (v.start + 8, m') ∧ Heap m' fl (v.pools [⟨n, false⟩]) ∧
      ∀ i, m' i = m i ∨ Admin fl (v.pools [⟨n, true⟩]) i := by
  obtain ⟨e, zs, hnext⟩ := v.exists_next
  obtain ⟨hback, hsize, hback', hsize', hzero⟩ := h.mid_free hnext
  have hlay := h.toLayout
  have hext : extent [⟨n, false⟩] = extent [⟨n, true⟩] := rfl
  obtain ⟨hsmall, htop, -⟩ := hlay.place_lt
  simp only [extent_cons, extent_nil] at hsmall htop
  have hn : 16 ≤ n := hlay.roomy _ Place.pool_mem ⟨n, true⟩ (by simp [Place.pool])
  have hs : Mark (v.pools [⟨n, true⟩]) v.start := Place.mark_mid [] rfl
  have hbn : Mark (v.pools [⟨n, true⟩]) (v.start + n) := Place.mark_behind (v := v)
  -- the buffer on the free list
  obtain ⟨fs, hr, hperm⟩ := h.ring
  have hfree : (v.pools [⟨n, true⟩]).flatMap Pool.free =
      v.before.flatMap Pool.free ++ frees v.base v.below ++ [v.start] ++
        (frees (v.start + n) v.above ++ v.after.flatMap Pool.free) := Place.free_pools
  have hmem : v.start ∈ fs := hperm.mem_iff.mpr (by rw [hfree]; simp)
  obtain ⟨as, bs, rfl⟩ := List.append_of_mem hmem
  have hnode : ∀ j ∈ fl :: (as ++ v.start :: bs), Node fl (v.pools [⟨n, true⟩]) j :=
    fun j hj => node_of_mem_ring hperm hj
  have htags := fun u (hu : Mark (v.pools [⟨n, true⟩]) u) => dechain_tags hlay hr hnode hu
  have haddr : addr v.start n = v.start + n := addr_add (by omega)
  have hfit : bufsize (-(n : ℤ)) = -n := bufsize_of_lt (by omega) (by omega)
  have hzero' : bufsize 0 = 0 := bufsize_of_lt (by omega) (by omega)
  have hgive : giveWhole m v.start =
      some (v.start + 8, setPrevfree (setBsize (dechain m v.start) v.start (-n)) (v.start + n) 0) := by
    have hlinked := linked_of_mem hr (List.mem_cons_of_mem fl hmem)
    simp only [giveWhole, hsize, haddr, hback', (htags _ hs).2]
    rw [if_pos ⟨trivial, hlinked⟩]
  -- what the writes leave
  have hprevs : ∀ u, Mark (v.pools [⟨n, true⟩]) u →
      prevfree (setPrevfree (setBsize (dechain m v.start) v.start (-n)) (v.start + n) 0) u =
        if u = v.start + n then 0 else prevfree m u := by
    intro u hu
    rw [prevfree_setPrevfree (hlay.header_header hu hbn), prevfree_setBsize (hlay.header_header hu hs), hzero',
      (htags u hu).1]
  have hsizes : ∀ u, Mark (v.pools [⟨n, true⟩]) u →
      bsize (setPrevfree (setBsize (dechain m v.start) v.start (-n)) (v.start + n) 0) u =
        if u = v.start then -(n : ℤ) else bsize m u := by
    intro u hu
    rw [bsize_setPrevfree (hlay.header_header hu hbn), bsize_setBsize (hlay.header_header hu hs), hfit,
      (htags u hu).2]
  have hfree' : (v.pools [⟨n, false⟩]).flatMap Pool.free =
      v.before.flatMap Pool.free ++ frees v.base v.below ++
        (frees (v.start + n) v.above ++ v.after.flatMap Pool.free) := by
    rw [Place.free_pools]
    simp [frees]
  refine ⟨_, hgive, h.edit (as ++ bs) hnext hext (by simpa using hn) ?_ (fun u hu hfar => ?_) ?_ ?_,
    fun i => ?_⟩
  · simp only [List.cons_append, List.nil_append, Laid, tags_back, tags_size, Chunk.tag, Chunk.back, hzero]
    have hpos : n ≠ 0 := by omega
    rw [hprevs _ hs, hprevs _ hbn, hsizes _ hs, hsizes _ hbn, hsize', hback]
    simp [hpos, Chunk.tag]
  · simp only [extent_cons, extent_nil] at hfar
    have hu : Mark (v.pools [⟨n, true⟩]) u := Place.mark_mono hext (fun s hs => hs) hu
    rw [hprevs u hu, hsizes u hu, if_neg (by omega), if_neg (by omega)]
    exact ⟨rfl, rfl⟩
  · refine (dechain_ring hlay hr hnode).congr (fun j hj => ?_) fun j hj => ?_
    · have hj := hnode j (mem_middle hj)
      rw [links_next, links_next, flink_setPrevfree (hlay.header_links hbn hj),
        flink_setBsize (hlay.header_links hs hj)]
    · have hj := hnode j (mem_middle hj)
      rw [links_prev, links_prev, blink_setPrevfree (hlay.header_links hbn hj),
        blink_setBsize (hlay.header_links hs hj)]
  · rw [hfree']
    rw [hfree] at hperm
    exact perm_of_middle hperm
  · by_cases hi : Admin fl (v.pools [⟨n, true⟩]) i
    · exact .inr hi
    · left
      have h₁ := out_of_header hi hs
      have h₂ := out_of_header hi hbn
      rw [setPrevfree, setSize, set32_frame (by omega), setBsize, setSize, set32_frame (by omega)]
      exact dechain_frame hlay hr hnode fun j hj => out_of_links hi hperm hj

/-! ### The best fit -/

/-- How much of a free buffer a request leaves over, when it is big enough. -/
def waste (m : Mem) (size : ℤ) (b : ℕ) : Option ℕ :=
  if size ≤ bsize m b then some (bsize m b - size).toNat else none

/-- One step of the scan. -/
def pick (m : Mem) (fl : ℕ) (size : ℤ) (best b : ℕ) : ℕ :=
  if size ≤ bsize m b ∧ (best = fl ∨ bsize m b < bsize m best) then b else best

theorem scan_eq {size : ℤ} {fuel best : ℕ} (hr : (links m).IsRing fl fs) (hfuel : fs.length < fuel) :
    scan m fl size fuel (flink m fl) best = some (fs.foldl (pick m fl size) best) := by
  have hseg : ∀ {a best fuel : ℕ} {fs : List ℕ}, (links m).Seg a fs fl → fl ∉ fs → fs.length < fuel →
      scan m fl size fuel (flink m a) best = some (fs.foldl (pick m fl size) best) := by
    intro a best fuel fs
    induction fs generalizing a best fuel with
    | nil =>
        intro hs _ hf
        obtain ⟨fuel, rfl⟩ := Nat.exists_eq_add_of_lt hf
        have hnext : flink m a = fl := hs.1
        simp [scan, hnext]
    | cons x fs ih =>
        intro hs hfl hf
        obtain ⟨fuel, rfl⟩ : ∃ n, fuel = n + 1 := ⟨fuel - 1, by omega⟩
        have hxfl : x ≠ fl := fun hx => hfl (by simp [hx])
        have hnext : flink m a = x := hs.1
        rw [hnext, scan, if_neg hxfl, List.foldl_cons]
        exact ih hs.2.2 (fun hx => hfl (by simp [hx])) (Nat.lt_of_succ_lt_succ hf)
  exact hseg hr.seg hr.head_notMem hfuel

/-- The scan ends at the first of the smallest free buffers that are big enough. -/
theorem pick_spec {size : ℤ} (hfl : fl ∉ fs) :
    (fs.foldl (pick m fl size) fl = fl ∧ ∀ b ∈ fs, bsize m b < size) ∨
      FirstLeast (waste m size) fs (fs.foldl (pick m fl size) fl) := by
  induction fs using List.reverseRecOn with
  | nil => exact .inl ⟨rfl, by simp⟩
  | append_singleton fs x ih =>
      have hfs : fl ∉ fs := fun h => hfl (by simp [h])
      rw [List.foldl_append, List.foldl_cons, List.foldl_nil]
      rcases ih hfs with ⟨hnone, hall⟩ | hbest
      · rw [hnone, pick]
        by_cases hx : size ≤ bsize m x
        · right
          rw [if_pos ⟨hx, .inl rfl⟩]
          refine .snoc_of_lt (by rw [waste, if_pos hx]) fun b hb v hv => ?_
          rw [waste, if_neg (by have := hall b hb; omega)] at hv
          cases hv
        · left
          rw [if_neg fun h => hx h.1]
          refine ⟨rfl, fun b hb => ?_⟩
          rcases List.mem_append.mp hb with hb | hb
          · exact hall b hb
          · rw [List.mem_singleton.mp hb]
            omega
      · right
        have hne : fs.foldl (pick m fl size) fl ≠ fl := fun heq => hfs (heq ▸ hbest.mem)
        generalize fs.foldl (pick m fl size) fl = best at hbest hne
        have hfits : size ≤ bsize m best := by
          by_contra hno
          have hsome := hbest.isSome
          rw [waste, if_neg hno] at hsome
          cases hsome
        have hscore : waste m size best = some (bsize m best - size).toNat := by rw [waste, if_pos hfits]
        rw [pick]
        by_cases hx : size ≤ bsize m x ∧ bsize m x < bsize m best
        · rw [if_pos ⟨hx.1, .inr hx.2⟩]
          refine .snoc_of_lt (by rw [waste, if_pos hx.1]) fun b hb v hv => ?_
          have hle := hbest.le hb hscore hv
          omega
        · rw [if_neg fun h => hx ⟨h.1, h.2.resolve_left hne⟩]
          refine hbest.snoc_of_le hscore fun v hv => ?_
          rw [waste] at hv
          split_ifs at hv with hfit
          · have hv := Option.some.inj hv
            have hnlt : ¬ bsize m x < bsize m best := fun h => hx ⟨hfit, h⟩
            omega
          · cases hv

/-- The size of the buffer for a request of `r` bytes. -/
def blockFor (r : ℕ) : ℕ := 4 * ((max r 8 + 3) / 4) + 8

theorem getSizeFor_eq {r : ℕ} (hr : r ≤ 2 ^ 31 - 12) : getSizeFor r = blockFor r := by
  have hmax : (if (r : ℤ) < 8 then 8 else (r : ℤ)) = ((max r 8 : ℕ) : ℤ) := by
    split_ifs with h <;> omega
  have h₁ : bufsize (((max r 8 : ℕ) : ℤ) + 3) = ((max r 8 : ℕ) : ℤ) + 3 := bufsize_of_lt (by omega) (by omega)
  rw [getSizeFor, hmax, h₁, bufsize_of_lt (by omega) (by omega), blockFor]
  omega

/-- What becomes of a free buffer of `n` bytes that serves a request for a buffer of `k` bytes. -/
def carve (n k : ℕ) : List Chunk := if k + 16 < n then [⟨n - k, true⟩, ⟨k, false⟩] else [⟨n, false⟩]

/-- Where in the free buffer the buffer for the client starts. -/
def carveAt (n k : ℕ) : ℕ := if k + 16 < n then n - k else 0

/-- `bget` fails when no free buffer is big enough. Otherwise it carves the buffer out of the best fit. -/
theorem bget_heap {r : ℕ} (h : Heap m fl pools) (hr : (links m).IsRing fl fs)
    (hperm : fs.Perm (pools.flatMap Pool.free)) (hpos : 0 < r) (hle : r ≤ 2 ^ 31 - 12) :
    (bget m fl r = some (0, m) ∧ ∀ b ∈ fs, bsize m b < blockFor r) ∨
      ∃ (v : Place) (n : ℕ) (m' : Mem), pools = v.pools [⟨n, true⟩] ∧ blockFor r ≤ n ∧
        FirstLeast (waste m (blockFor r)) fs v.start ∧
        bget m fl r = some (v.start + carveAt n (blockFor r) + 8, m') ∧ Heap m' fl (v.pools (carve n (blockFor r))) ∧
        ∀ i, m' i = m i ∨ Admin fl pools i ∨ Admin fl (v.pools (carve n (blockFor r))) i := by
  have hk : 16 ≤ blockFor r := by
    rw [blockFor]
    omega
  have hfuel : (2 ^ 32 : ℕ) = 4294967295 + 1 := by norm_num
  have hget : bget m fl r = serve m fl (blockFor r) (2 ^ 32) (fs.foldl (pick m fl (blockFor r)) fl) := by
    rw [bget, if_pos (by omega), getSizeFor_eq hle]
    dsimp only
    rw [scan_eq hr (h.length_lt hr hperm), Option.bind_some]
  rw [hget, hfuel, serve]
  have hpick := @pick_spec m fl fs (blockFor r) hr.head_notMem
  rcases hpick with ⟨hnone, hall⟩ | hbest
  · exact .inl ⟨by rw [if_pos hnone], hall⟩
  · right
    generalize fs.foldl (pick m fl (blockFor r)) fl = best at hbest
    have hne : best ≠ fl := fun heq => hr.head_notMem (heq ▸ hbest.mem)
    obtain ⟨v, n, rfl, rfl⟩ := exists_place_of_free (hperm.mem_iff.mp hbest.mem)
    obtain ⟨e, zs, hnext⟩ := v.exists_next
    obtain ⟨-, hsize, -⟩ := h.mid_free hnext
    have hfits : blockFor r ≤ n := by
      have hsome := hbest.isSome
      rw [waste, hsize] at hsome
      by_contra hno
      rw [if_neg (by omega)] at hsome
      cases hsome
    have hsmall := h.toLayout.place_lt.1
    simp only [extent_cons, extent_nil] at hsmall
    rw [if_neg hne, hsize, if_pos (by omega)]
    by_cases hlarge : blockFor r + 16 < n
    · obtain ⟨m', hsplit, hheap, hframe⟩ := split_heap h hk hlarge
      refine ⟨v, n, m', rfl, hfits, hbest, ?_, ?_, fun i => ?_⟩
      · rw [if_pos (by omega), hsplit, carveAt, if_pos hlarge]
      · rwa [carve, if_pos hlarge]
      · rw [carve, if_pos hlarge]
        exact (hframe i).imp_right .inr
    · obtain ⟨m', hgive, hheap, hframe⟩ := giveWhole_heap h
      refine ⟨v, n, m', rfl, hfits, hbest, ?_, ?_, fun i => ?_⟩
      · rw [if_neg (by omega), hgive, carveAt, if_neg hlarge, Nat.add_zero]
      · rwa [carve, if_neg hlarge]
      · exact (hframe i).imp_right .inl

/-! ## Giving a buffer back -/

/-- A buffer is free, but the buffer behind the place does not know it yet, and the next one may be free too. -/
structure Half (m m' : Mem) (fl : ℕ) (v : Place) (ms : List Chunk) (size : ℕ) (fs : List ℕ) : Prop where
  prevs : ∀ u, Mark (v.pools ms) u → prevfree m' u = prevfree m u
  sizes : ∀ u, Mark (v.pools ms) u → bsize m' u = if u = v.start then (size : ℤ) else bsize m u
  ring : (links m').IsRing fl fs
  node : ∀ j ∈ fl :: fs, Node fl (v.pools ms) j

/-- The buffer before `b` is free, and `b` joins it. -/
theorem release_join {R : List Chunk} (h : Heap m fl (v.pools (⟨n, true⟩ :: ⟨k, false⟩ :: R)))
    (hr : (links m).IsRing fl fs) (hperm : fs.Perm ((v.pools (⟨n, true⟩ :: ⟨k, false⟩ :: R)).flatMap Pool.free)) :
    ∃ m', release m fl (v.start + n) = some (v.start, m') ∧
      Half m m' fl v (⟨n, true⟩ :: ⟨k, false⟩ :: R) (n + k) fs ∧
      ∀ i, m' i = m i ∨ Admin fl (v.pools (⟨n, true⟩ :: ⟨k, false⟩ :: R)) i := by
  obtain ⟨e, zs, hnext⟩ := v.exists_next
  have hlay := h.toLayout
  obtain ⟨-, hsize, -, hback', hsize', -⟩ := h.mid hnext
  simp only [tags_back, tags_size, tag_free, tag_used, back_free] at hsize hback' hsize'
  obtain ⟨hsmall, htop, -⟩ := hlay.place_lt
  simp only [extent_cons] at hsmall htop
  have hn : 16 ≤ n := hlay.roomy _ Place.pool_mem ⟨n, true⟩ (by simp [Place.pool])
  have hs : Mark (v.pools (⟨n, true⟩ :: ⟨k, false⟩ :: R)) v.start := Place.mark_mid [] rfl
  have haddr : addr (v.start + n) (-(n : ℤ)) = v.start := by
    rw [addr_sub (by omega) (by omega)]
    omega
  have hfit : bufsize ((n : ℤ) - -k) = n + k := by
    rw [bufsize_of_lt (by omega) (by omega)]
    omega
  have hrel : release m fl (v.start + n) = some (v.start, setBsize m v.start (n - -k)) := by
    rw [release, if_pos (by omega), hback', haddr]
    dsimp only
    rw [hsize, hsize', if_pos rfl]
  have hnode : ∀ j ∈ fl :: fs, Node fl (v.pools (⟨n, true⟩ :: ⟨k, false⟩ :: R)) j :=
    fun j hj => node_of_mem_ring hperm hj
  refine ⟨_, hrel, ⟨fun u hu => ?_, fun u hu => ?_, ?_, hnode⟩, fun i => ?_⟩
  · rw [prevfree_setBsize (hlay.header_header hu hs)]
  · rw [bsize_setBsize (hlay.header_header hu hs), hfit]
    push_cast
    rfl
  · refine hr.congr (fun j hj => ?_) fun j hj => ?_
    · rw [links_next, links_next, flink_setBsize (hlay.header_links hs (hnode j hj))]
    · rw [links_prev, links_prev, blink_setBsize (hlay.header_links hs (hnode j hj))]
  · by_cases hi : Admin fl (v.pools (⟨n, true⟩ :: ⟨k, false⟩ :: R)) i
    · exact .inr hi
    · left
      have h₁ := out_of_header hi hs
      rw [setBsize, setSize, set32_frame (by omega)]

/-- The buffer before `b` is in use, and `b` goes on the free list. -/
theorem release_alone {R : List Chunk} (h : Heap m fl (v.pools (⟨k, false⟩ :: R))) (hr : (links m).IsRing fl fs)
    (hperm : fs.Perm ((v.pools (⟨k, false⟩ :: R)).flatMap Pool.free)) (hzero : backOf 0 v.below = 0) :
    ∃ m', release m fl v.start = some (v.start, m') ∧ Half m m' fl v (⟨k, false⟩ :: R) k (fs ++ [v.start]) ∧
      ∀ i, m' i = m i ∨ Admin fl (v.pools (⟨k, false⟩ :: R)) i ∨ (v.start + 8 ≤ i ∧ i < v.start + 16) := by
  obtain ⟨e, zs, hnext⟩ := v.exists_next
  have hlay := h.toLayout
  obtain ⟨hback, hsize, -⟩ := h.mid hnext
  simp only [tags_back, tags_size, tag_used, hzero, Nat.cast_zero] at hback hsize
  obtain ⟨hsmall, htop, -⟩ := hlay.place_lt
  simp only [extent_cons] at hsmall htop
  have hs : Mark (v.pools (⟨k, false⟩ :: R)) v.start := Place.mark_mid [] rfl
  have hn : Node fl (v.pools (⟨k, false⟩ :: R)) v.start := Place.node_mid [] rfl
  have hnode : ∀ j ∈ fl :: fs, Node fl (v.pools (⟨k, false⟩ :: R)) j := fun j hj => node_of_mem_ring hperm hj
  -- it is not on the list yet
  have hused : Used (v.pools (⟨k, false⟩ :: R)) v.start ⟨k, false⟩ :=
    ⟨v.pool _, Place.pool_mem, v.below, R ++ v.above, by simp [Place.pool], rfl, rfl⟩
  have hnew : v.start ∉ fl :: fs := by
    intro hmem
    rcases List.mem_cons.mp hmem with heq | hmem
    · have hfl := hlay.head_apart _ Place.pool_mem
      rw [Place.pool_top, extent_cons] at hfl
      have hbase : (v.pool (⟨k, false⟩ :: R)).base = v.base := rfl
      rw [Place.start] at heq
      omega
    · exact hlay.used_notMem hused (hperm.mem_iff.mp hmem)
  have htags := fun u (hu : Mark (v.pools (⟨k, false⟩ :: R)) u) => enchain_tags hlay hr hnode hn hnew hu
  have hfit : bufsize (-(-k : ℤ)) = k := by
    rw [neg_neg, bufsize_of_lt (by omega) (by omega)]
  have hrel : release m fl v.start = some (v.start, setBsize (enchain m fl v.start) v.start (-(-k))) := by
    rw [release, if_neg (by omega), if_pos (linked_of_mem hr (by simp))]
    dsimp only
    rw [(htags _ hs).2, hsize]
  have hnode' : ∀ j ∈ fl :: (fs ++ [v.start]), Node fl (v.pools (⟨k, false⟩ :: R)) j := by
    intro j hj
    rw [← List.cons_append, List.mem_append, List.mem_singleton] at hj
    rcases hj with hj | rfl
    · exact hnode j hj
    · exact hn
  refine ⟨_, hrel, ⟨fun u hu => ?_, fun u hu => ?_, ?_, hnode'⟩, fun i => ?_⟩
  · rw [prevfree_setBsize (hlay.header_header hu hs), (htags u hu).1]
  · rw [bsize_setBsize (hlay.header_header hu hs), hfit, (htags u hu).2]
  · refine (enchain_ring hlay hr hnode hn hnew).congr (fun j hj => ?_) fun j hj => ?_
    · rw [links_next, links_next, flink_setBsize (hlay.header_links hs (hnode' j hj))]
    · rw [links_prev, links_prev, blink_setBsize (hlay.header_links hs (hnode' j hj))]
  · by_cases hi : Admin fl (v.pools (⟨k, false⟩ :: R)) i
    · exact .inr (.inl hi)
    · by_cases hlink : v.start + 8 ≤ i ∧ i < v.start + 16
      · exact .inr (.inr hlink)
      · left
        have h₁ := out_of_header hi hs
        rw [setBsize, setSize, set32_frame (by omega)]
        exact enchain_frame hlay hr hn hnew (fun j hj => out_of_links hi hperm hj) (by omega)

/-- What `bsize` is told of a buffer in use, the sentinel included. -/
theorem tag_neg (h : Layout fl (v.pools ms)) (hnext : v.above ++ [sentinel] = e :: zs) (hbusy : e.free = false) :
    e.tag < 0 := by
  have hpos : 0 < e.size := by
    have he : e ∈ v.above ++ [sentinel] := by simp [hnext]
    rcases List.mem_append.mp he with he | he
    · have := h.roomy _ Place.pool_mem e (by simp [Place.pool, he])
      omega
    · rw [List.mem_singleton.mp he]
      decide
  rw [Chunk.tag, if_neg (by simp [hbusy])]
  omega

/-- The buffer behind the place is told of the free buffer, and the heap is in order again. -/
theorem Half.finish (h : Heap m fl (v.pools ms)) (hhalf : Half m m' fl v ms (extent ms) fs) (hms : ms = b :: xs)
    (hzero : backOf 0 v.below = 0) (hnext : v.above ++ [sentinel] = e :: zs) (hbusy : e.free = false)
    (hperm : fs.Perm ((v.pools [⟨extent ms, true⟩]).flatMap Pool.free)) :
    Heap (setPrevfree m' (v.start + extent ms) (extent ms)) fl (v.pools [⟨extent ms, true⟩]) := by
  have hlay := h.toLayout
  have hs : Mark (v.pools ms) v.start := Place.mark_mid [] hms
  have hbn : Mark (v.pools ms) (v.start + extent ms) := Place.mark_behind
  have hsmall := hlay.place_lt.1
  have hlarge : 16 ≤ extent ms := by
    have := hlay.roomy _ Place.pool_mem b (by simp [Place.pool, hms])
    rw [hms, extent_cons]
    omega
  have hext : extent [⟨extent ms, true⟩] = extent ms := rfl
  have hfit : bufsize (extent ms : ℤ) = extent ms := bufsize_of_lt (by omega) (by omega)
  -- the tags before
  have hmid := h.mid hnext
  have hsize' := hmid.at.2.1
  have hback : prevfree m v.start = 0 := by
    rw [hms, hzero, List.cons_append] at hmid
    rw [← tags_back]
    exact hmid.1
  rw [tags_size] at hsize'
  have hprevs : ∀ u, Mark (v.pools ms) u → prevfree (setPrevfree m' (v.start + extent ms) (extent ms)) u =
      if u = v.start + extent ms then (extent ms : ℤ) else prevfree m u := by
    intro u hu
    rw [prevfree_setPrevfree (hlay.header_header hu hbn), hfit, hhalf.prevs u hu]
  have hsizes : ∀ u, Mark (v.pools ms) u → bsize (setPrevfree m' (v.start + extent ms) (extent ms)) u =
      if u = v.start then (extent ms : ℤ) else bsize m u := by
    intro u hu
    rw [bsize_setPrevfree (hlay.header_header hu hbn), hhalf.sizes u hu]
  refine h.edit fs hnext hext (by simpa using hlarge) ?_ (fun u hu hfar => ?_) ?_ hperm
  · simp only [List.cons_append, List.nil_append, Laid, tags_back, tags_size, tag_free, back_free, hzero, hbusy]
    rw [hprevs _ hs, hprevs _ hbn, hsizes _ hs, hsizes _ hbn, if_neg (by omega), if_pos rfl, if_pos rfl,
      if_neg (by omega), hback, hsize']
    simp
  · have hsub : ∀ s ∈ bases v.start [⟨extent ms, true⟩], s ∈ bases v.start ms := by
      intro s hs
      rw [List.mem_singleton.mp hs, hms, bases]
      exact List.mem_cons_self
    have hu := Place.mark_mono hext hsub hu
    rw [hprevs u hu, hsizes u hu, if_neg (by omega), if_neg (by omega)]
    exact ⟨rfl, rfl⟩
  · refine hhalf.ring.congr (fun j hj => ?_) fun j hj => ?_
    · rw [links_next, links_next, flink_setPrevfree (hlay.header_links hbn (hhalf.node j hj))]
    · rw [links_prev, links_prev, blink_setPrevfree (hlay.header_links hbn (hhalf.node j hj))]

/-- The buffer behind the place is in use. -/
theorem joinNext_alone (h : Heap m fl (v.pools ms)) (hhalf : Half m m' fl v ms (extent ms) fs) (hms : ms = b :: xs)
    (hnext : v.above ++ [sentinel] = e :: zs) (hbusy : e.free = false) :
    joinNext m' v.start = some (setPrevfree m' (v.start + extent ms) (extent ms)) := by
  have hlay := h.toLayout
  obtain ⟨hsmall, htop, -⟩ := hlay.place_lt
  have hs : Mark (v.pools ms) v.start := Place.mark_mid [] hms
  have hbn : Mark (v.pools ms) (v.start + extent ms) := Place.mark_behind
  have hb := hlay.roomy _ Place.pool_mem b (by simp [Place.pool, hms])
  have hlarge : extent ms ≠ 0 := by
    rw [hms, extent_cons]
    omega
  have hsize : bsize m' v.start = extent ms := by rw [hhalf.sizes _ hs, if_pos rfl]
  have hsize' : bsize m' (v.start + extent ms) < 0 := by
    have htag := (h.mid hnext).at.2.1
    rw [tags_size] at htag
    rw [hhalf.sizes _ hbn, if_neg (by omega), htag]
    exact tag_neg hlay hnext hbusy
  have haddr : addr v.start (extent ms) = v.start + extent ms := addr_add (by omega)
  simp only [joinNext, hsize, haddr]
  rw [if_neg (by omega), if_pos hsize']

/-- The buffer behind the place is free. It leaves the free list, and its place becomes part of the free buffer. -/
theorem joinNext_join {as bs : List ℕ} (h : Heap m fl (v.pools (ms ++ [⟨n, true⟩])))
    (hhalf : Half m m' fl v (ms ++ [⟨n, true⟩]) (extent ms) (as ++ (v.start + extent ms) :: bs)) (hms : ms = b :: xs)
    (hnext : v.above ++ [sentinel] = e :: zs) (hbusy : e.free = false) :
    ∃ m₂, joinNext m' v.start = some (setPrevfree m₂ (v.start + extent (ms ++ [⟨n, true⟩]))
        (extent (ms ++ [⟨n, true⟩]))) ∧
      Half m m₂ fl v (ms ++ [⟨n, true⟩]) (extent (ms ++ [⟨n, true⟩])) (as ++ bs) ∧
      m₂ = setBsize (dechain m' (v.start + extent ms)) v.start (extent (ms ++ [⟨n, true⟩])) := by
  have hlay := h.toLayout
  obtain ⟨hsmall, htop, -⟩ := hlay.place_lt
  have hext : extent (ms ++ [⟨n, true⟩]) = extent ms + n := by simp
  have hcut : ms ++ [⟨n, true⟩] = b :: (xs ++ [⟨n, true⟩]) := by simp [hms]
  have hs : Mark (v.pools (ms ++ [⟨n, true⟩])) v.start := Place.mark_mid [] hcut
  have hbn : Mark (v.pools (ms ++ [⟨n, true⟩])) (v.start + extent ms) := Place.mark_mid ms rfl
  have hbe : Mark (v.pools (ms ++ [⟨n, true⟩])) (v.start + extent (ms ++ [⟨n, true⟩])) := Place.mark_behind
  have hb := hlay.roomy _ Place.pool_mem b (by simp [Place.pool, hms])
  have hn : 16 ≤ n := hlay.roomy _ Place.pool_mem ⟨n, true⟩ (by simp [Place.pool])
  have hlarge : 16 ≤ extent ms := by
    rw [hms, extent_cons]
    omega
  have hne : v.start + extent ms ≠ v.start := by omega
  have hne' : v.start + extent (ms ++ [⟨n, true⟩]) ≠ v.start := by omega
  have haddr : addr v.start (extent ms) = v.start + extent ms := addr_add (by omega)
  have haddr' : addr (v.start + extent ms) n = v.start + extent (ms ++ [⟨n, true⟩]) := by
    rw [addr_add (by omega)]
    omega
  have haddr'' : addr v.start (extent (ms ++ [⟨n, true⟩])) = v.start + extent (ms ++ [⟨n, true⟩]) :=
    addr_add (by omega)
  have hsum : (extent ms : ℤ) + n = extent (ms ++ [⟨n, true⟩]) := by omega
  have hnpos : (0 : ℤ) < n := by omega
  have hfit : bufsize (extent (ms ++ [⟨n, true⟩]) : ℤ) = extent (ms ++ [⟨n, true⟩]) :=
    bufsize_of_lt (by omega) (by omega)
  -- the tags of the free buffer behind
  have hmid := h.mid hnext
  have htag := hmid.at.2.1
  rw [List.append_assoc, List.singleton_append] at hmid
  have hnsize := hmid.at.2.1
  have hnback := hmid.at_next
  simp only [tags_size, tags_back, tag_free, back_free] at htag hnsize hnback
  have hneg := tag_neg hlay hnext hbusy
  -- the same after the first half
  have hsize : bsize m' v.start = extent ms := by rw [hhalf.sizes _ hs, if_pos rfl]
  have hsize' : bsize m' (v.start + extent ms) = n := by rw [hhalf.sizes _ hbn, if_neg hne, hnsize]
  have hback' : prevfree m' (v.start + extent (ms ++ [⟨n, true⟩])) = n := by
    rw [hhalf.prevs _ hbe, hext, ← Nat.add_assoc]
    exact hnback
  have hlinked : Linked m' (v.start + extent ms) := linked_of_mem hhalf.ring (by simp)
  have htags := fun u (hu : Mark (v.pools (ms ++ [⟨n, true⟩])) u) => dechain_tags hlay hhalf.ring hhalf.node hu
  have hnode : ∀ j ∈ fl :: (as ++ bs), Node fl (v.pools (ms ++ [⟨n, true⟩])) j :=
    fun j hj => hhalf.node j (mem_middle hj)
  refine ⟨_, ?_, ⟨fun u hu => ?_, fun u hu => ?_, ?_, hnode⟩, rfl⟩
  · have hbsize := bsize_setBsize (m := dechain m' (v.start + extent ms)) (x := extent (ms ++ [⟨n, true⟩]))
      (hlay.header_header hs hs)
    have hbsize' := bsize_setBsize (m := dechain m' (v.start + extent ms)) (x := extent (ms ++ [⟨n, true⟩]))
      (hlay.header_header hbe hs)
    rw [if_pos rfl, hfit] at hbsize
    rw [if_neg hne', (htags _ hbe).2, hhalf.sizes _ hbe, if_neg hne', htag] at hbsize'
    simp only [joinNext, hsize, haddr, hsize', haddr', (htags _ hs).2, (htags _ hbn).2, hsum, hbsize, haddr'', hbsize']
    rw [if_pos hnpos, if_pos ⟨hback', hlinked⟩, if_pos hneg]
  · rw [prevfree_setBsize (hlay.header_header hu hs), (htags u hu).1, hhalf.prevs u hu]
  · rw [bsize_setBsize (hlay.header_header hu hs), hfit, (htags u hu).2, hhalf.sizes u hu]
    split_ifs <;> rfl
  · refine (dechain_ring hlay hhalf.ring hhalf.node).congr (fun j hj => ?_) fun j hj => ?_
    · rw [links_next, links_next, flink_setBsize (hlay.header_links hs (hnode j hj))]
    · rw [links_prev, links_prev, blink_setBsize (hlay.header_links hs (hnode j hj))]

/-- The second half of `brel`. -/
theorem joinNext_heap {R : List Chunk} (h : Heap m fl (v.pools (ms ++ R)))
    (hhalf : Half m m' fl v (ms ++ R) (extent ms) fs) (hms : ms = b :: xs) (hzero : backOf 0 v.below = 0)
    (hR : R = [] ∨ ∃ n, R = [⟨n, true⟩]) (hnext : v.above ++ [sentinel] = e :: zs) (hbusy : e.free = false)
    (hperm : fs.Perm ((v.pools (⟨extent ms, true⟩ :: R)).flatMap Pool.free)) :
    ∃ m₂, joinNext m' v.start = some m₂ ∧ Heap m₂ fl (v.pools [⟨extent (ms ++ R), true⟩]) ∧
      ∀ i, m₂ i = m' i ∨ Admin fl (v.pools (ms ++ R)) i ∨ Admin fl (v.pools [⟨extent (ms ++ R), true⟩]) i := by
  have hbe : Mark (v.pools (ms ++ R)) (v.start + extent (ms ++ R)) := Place.mark_behind
  rcases hR with rfl | ⟨n, rfl⟩
  · rw [List.append_nil] at h hhalf hbe ⊢
    refine ⟨_, joinNext_alone h hhalf hms hnext hbusy, hhalf.finish h hms hzero hnext hbusy hperm, fun i => ?_⟩
    by_cases hi : Admin fl (v.pools ms) i
    · exact .inr (.inl hi)
    · left
      have hout := out_of_header hi hbe
      rw [setPrevfree, setSize, set32_frame (by omega)]
  · have hfree : (v.pools (⟨extent ms, true⟩ :: [⟨n, true⟩])).flatMap Pool.free =
        (v.before.flatMap Pool.free ++ frees v.base v.below ++ [v.start]) ++ [v.start + extent ms] ++
          (frees (v.start + extent ms + n) v.above ++ v.after.flatMap Pool.free) := by
      rw [Place.free_pools]
      simp [frees, Nat.add_assoc]
    have hfree' : (v.pools [⟨extent (ms ++ [⟨n, true⟩]), true⟩]).flatMap Pool.free =
        (v.before.flatMap Pool.free ++ frees v.base v.below ++ [v.start]) ++
          (frees (v.start + extent ms + n) v.above ++ v.after.flatMap Pool.free) := by
      rw [Place.free_pools]
      simp [frees, Nat.add_assoc]
    have hold : (v.pools (ms ++ [⟨n, true⟩])).flatMap Pool.free =
        (v.before.flatMap Pool.free ++ frees v.base v.below ++ frees v.start ms) ++ [v.start + extent ms] ++
          (frees (v.start + extent ms + n) v.above ++ v.after.flatMap Pool.free) := by
      rw [Place.free_pools]
      simp [frees, Nat.add_assoc]
    rw [hfree] at hperm
    have hmem : v.start + extent ms ∈ fs := hperm.mem_iff.mpr (by simp)
    obtain ⟨as, bs, rfl⟩ := List.append_of_mem hmem
    obtain ⟨m₂, hjoin, hhalf₂, hm₂⟩ := joinNext_join h hhalf hms hnext hbusy
    have hcut : ms ++ [⟨n, true⟩] = b :: (xs ++ [⟨n, true⟩]) := by simp [hms]
    have hperm₂ : (as ++ bs).Perm ((v.pools [⟨extent (ms ++ [⟨n, true⟩]), true⟩]).flatMap Pool.free) := by
      rw [hfree']
      exact perm_of_middle hperm
    refine ⟨_, hjoin, hhalf₂.finish h hcut hzero hnext hbusy hperm₂, fun i => ?_⟩
    by_cases hi : Admin fl (v.pools (ms ++ [⟨n, true⟩])) i
    · exact .inr (.inl hi)
    · by_cases hi' : Admin fl (v.pools [⟨extent (ms ++ [⟨n, true⟩]), true⟩]) i
      · exact .inr (.inr hi')
      · left
        have hs : Mark (v.pools (ms ++ [⟨n, true⟩])) v.start := Place.mark_mid [] hcut
        have hout := out_of_header hi hbe
        have hout' := out_of_header hi hs
        rw [setPrevfree, setSize, set32_frame (by omega), hm₂, setBsize, setSize, set32_frame (by omega)]
        -- the neighbours on the list are free in the old pools or in the new ones
        refine dechain_frame h.toLayout hhalf.ring hhalf.node fun j hj => ?_
        rcases List.mem_cons.mp hj with rfl | hj
        · exact out_of_links hi (List.Perm.refl _) (by simp)
        · by_cases hjold : j ∈ (v.pools (ms ++ [⟨n, true⟩])).flatMap Pool.free
          · exact out_of_links hi (List.Perm.refl _) (List.mem_cons_of_mem _ hjold)
          · have hjs : j = v.start := by
              have hj := hperm.mem_iff.mp hj
              rw [hold] at hjold
              simp only [List.mem_append, List.mem_singleton, not_or] at hj hjold
              obtain ⟨⟨⟨⟨hA, hbelow⟩, -⟩, hend⟩, habove, hB⟩ := hjold
              rcases hj with (((hj | hj) | hj) | hj) | hj | hj
              · exact absurd hj hA
              · exact absurd hj hbelow
              · exact hj
              · exact absurd hj hend
              · exact absurd hj habove
              · exact absurd hj hB
            refine out_of_links hi' (List.Perm.refl _) (List.mem_cons_of_mem _ ?_)
            rw [hfree', hjs]
            simp

/-- The free neighbours of a buffer in use. -/
theorem exists_neighbours (h : Heap m fl pools) (hused : Used pools s b) :
    ∃ (v : Place) (L R : List Chunk) (e : Chunk) (zs : List Chunk), pools = v.pools (L ++ b :: R) ∧
      s = v.start + extent L ∧ (L = [] ∨ ∃ n, L = [⟨n, true⟩]) ∧ (R = [] ∨ ∃ n, R = [⟨n, true⟩]) ∧
      backOf 0 v.below = 0 ∧ v.above ++ [sentinel] = e :: zs ∧ e.free = false := by
  obtain ⟨v, rfl, hbusy, rfl⟩ := used_iff.mp hused
  have hroomy := h.roomy _ Place.pool_mem
  -- the buffer above
  obtain ⟨R, above, e, zs, habove, hR, hnext, hfree⟩ : ∃ R above e zs, v.above = R ++ above ∧
      (R = [] ∨ ∃ n, R = [⟨n, true⟩]) ∧ above ++ [sentinel] = e :: zs ∧ e.free = false := by
    obtain ⟨e, zs, hnext⟩ := v.exists_next
    by_cases he : e.free = true
    · cases habove : v.above with
      | nil =>
          rw [habove] at hnext
          obtain ⟨rfl, -⟩ := List.cons.inj hnext
          cases he
      | cons y ys =>
          rw [habove] at hnext
          obtain ⟨rfl, rfl⟩ := List.cons.inj hnext
          have hpos : 0 < y.size := by
            have := hroomy y (by simp [Place.pool, habove])
            omega
          obtain ⟨e', zs', hnext'⟩ : ∃ e zs, ys ++ [sentinel] = e :: zs := by cases ys <;> simp
          refine ⟨[y], ys, e', zs', rfl, .inr ⟨y.size, ?_⟩, hnext', ?_⟩
          · cases y
            simp_all
          · have hlaid := h.laid _ Place.pool_mem
            have hrow : (v.pool [b]).row = (v.below ++ [b]) ++ y :: e' :: zs' := by
              simp [Pool.row, Place.pool, habove, hnext']
            rw [hrow] at hlaid
            by_contra he'
            exact hlaid.not_adjacent hpos ⟨he, by simpa using he'⟩
    · exact ⟨[], v.above, e, zs, rfl, .inl rfl, hnext, by simpa using he⟩
  -- the buffer below
  by_cases hback : backOf 0 v.below = 0
  · refine ⟨⟨v.before, v.after, v.base, v.below, above⟩, [], R, e, zs, ?_, by simp [Place.start], .inl rfl, hR, hback,
      hnext, hfree⟩
    simp [Place.pools, Place.pool, habove]
  · obtain ⟨below, ⟨n, f⟩, hbelow, hf, -⟩ := exists_of_backOf_ne_zero hback
    obtain rfl : f = true := hf
    refine ⟨⟨v.before, v.after, v.base, below, above⟩, [⟨n, true⟩], R, e, zs, ?_, ?_, .inr ⟨n, rfl⟩, hR, ?_, hnext,
      hfree⟩
    · simp [Place.pools, Place.pool, habove, hbelow]
    · simp [Place.start, hbelow, Nat.add_assoc]
    · have hlaid := h.laid _ Place.pool_mem
      have hrow : (v.pool [b]).row = below ++ ⟨n, true⟩ :: ([b] ++ v.above ++ [sentinel]) := by
        simp [Pool.row, Place.pool, hbelow]
      rw [hrow] at hlaid
      exact hlaid.at.2.2 rfl

/-- A buffer that is given back and its free neighbours become one free buffer. -/
theorem brel_heap (h : Heap m fl pools) (hused : Used pools s b) :
    ∃ (v : Place) (L R : List Chunk) (m' : Mem), pools = v.pools (L ++ b :: R) ∧ s = v.start + extent L ∧
      (∀ c ∈ L ++ R, c.free = true) ∧ brel m fl (s + 8) = some m' ∧
      Heap m' fl (v.pools [⟨extent (L ++ b :: R), true⟩]) ∧
      ∀ i, m' i = m i ∨ Admin fl pools i ∨ Admin fl (v.pools [⟨extent (L ++ b :: R), true⟩]) i := by
  obtain ⟨v, L, R, e, zs, rfl, rfl, hL, hR, hzero, hnext, hfree⟩ := exists_neighbours h hused
  obtain ⟨k, f⟩ := b
  obtain rfl : f = false := (used_iff.mp hused).choose_spec.2.1
  obtain ⟨fs, hr, hperm⟩ := h.ring
  have hfrees : ∀ c ∈ L ++ R, c.free = true := by
    intro c hc
    rcases List.mem_append.mp hc with hc | hc
    · obtain ⟨n, rfl⟩ := hL.resolve_left (List.ne_nil_of_mem hc)
      rw [List.mem_singleton.mp hc]
    · obtain ⟨n, rfl⟩ := hR.resolve_left (List.ne_nil_of_mem hc)
      rw [List.mem_singleton.mp hc]
  refine ⟨v, L, R, ?_⟩
  -- the first half leaves a heap that the second half puts in order
  suffices hhalf : ∃ m' fs', release m fl (v.start + extent L) = some (v.start, m') ∧
      Half m m' fl v (L ++ ⟨k, false⟩ :: R) (extent (L ++ [⟨k, false⟩])) fs' ∧
      fs'.Perm ((v.pools (⟨extent (L ++ [⟨k, false⟩]), true⟩ :: R)).flatMap Pool.free) ∧
      ∀ i, m' i = m i ∨ Admin fl (v.pools (L ++ ⟨k, false⟩ :: R)) i ∨ (v.start + 8 ≤ i ∧ i < v.start + 16) by
    obtain ⟨m', fs', hrel, hhalf, hperm', hframe⟩ := hhalf
    have hcut : L ++ ⟨k, false⟩ :: R = L ++ [⟨k, false⟩] ++ R := by simp
    obtain ⟨c, cs, hcs⟩ : ∃ c cs, L ++ [(⟨k, false⟩ : Chunk)] = c :: cs := by cases L <;> simp
    obtain ⟨m₂, hjoin, hheap, hframe₂⟩ := joinNext_heap (hcut ▸ h) (hcut ▸ hhalf) hcs hzero hR hnext hfree hperm'
    rw [← hcut] at hheap hframe₂
    refine ⟨m₂, rfl, rfl, hfrees, ?_, hheap, fun i => ?_⟩
    · obtain ⟨hsmall, htop, hstart⟩ := h.toLayout.place_lt
      simp only [extent_append, extent_cons] at hsmall htop
      have hk : 16 ≤ k := h.roomy _ Place.pool_mem ⟨k, false⟩ (by simp [Place.pool])
      have haddr : addr (v.start + extent L + 8) (-8) = v.start + extent L := by
        have hsub := addr_sub (n := 8) (p := v.start + extent L + 8) (by omega) (by omega)
        rw [Nat.add_sub_cancel] at hsub
        exact hsub
      have haddr' : addr (v.start + extent L) (k : ℤ) = v.start + extent L + k := addr_add (by omega)
      have hneg : -(k : ℤ) < 0 := by omega
      have hmid := h.mid hnext
      obtain ⟨c', cs', hcs'⟩ : ∃ c' cs', R ++ [e] = c' :: cs' := by cases R <;> simp
      rw [List.append_assoc, List.cons_append, hcs'] at hmid
      have hsize := hmid.at.2.1
      have hback := hmid.at_next
      rw [tags_size, tag_used] at hsize
      rw [tags_back, back_used, Nat.cast_zero] at hback
      simp only [brel, haddr, hsize, neg_neg, haddr', hback, hrel]
      rw [if_pos ⟨Nat.succ_ne_zero _, hneg, trivial⟩, Option.bind_some]
      exact hjoin
    · have hstartfree : v.start ∈ (v.pool [⟨extent (L ++ ⟨k, false⟩ :: R), true⟩]).free := by
        simp [Pool.free, Place.pool, frees, Place.start]
      rcases hframe₂ i with h₂ | h₂ | h₂
      · rcases hframe i with h₁ | h₁ | h₁
        · exact .inl (h₂.trans h₁)
        · exact .inr (.inl h₁)
        · exact .inr (.inr (.inr ⟨v.start, .inr ⟨_, Place.pool_mem, hstartfree⟩, h₁⟩))
      · exact .inr (.inl h₂)
      · exact .inr (.inr h₂)
  rcases hL with rfl | ⟨n, rfl⟩
  · obtain ⟨m', hrel, hhalf, hframe⟩ := release_alone h hr hperm hzero
    refine ⟨m', _, hrel, hhalf, ?_, hframe⟩
    rw [Place.free_pools] at hperm ⊢
    have hlast : (fs ++ [v.start]).Perm (v.start :: fs) := List.perm_append_singleton v.start fs
    refine (hlast.trans (hperm.cons v.start)).trans ?_
    have hmid : (v.start :: ((v.before.flatMap Pool.free ++ frees v.base v.below) ++ (frees (v.start + k) R ++
        (frees (v.start + (k + extent R)) v.above ++ v.after.flatMap Pool.free)))).Perm
        ((v.before.flatMap Pool.free ++ frees v.base v.below) ++ v.start :: (frees (v.start + k) R ++
          (frees (v.start + (k + extent R)) v.above ++ v.after.flatMap Pool.free))) := List.perm_middle.symm
    simpa only [List.nil_append, List.cons_append, frees, Bool.false_eq_true, if_true, if_false, extent_cons,
      extent_nil, Nat.add_zero, List.append_assoc] using hmid
  · obtain ⟨m', hrel, hhalf, hframe⟩ := release_join h hr hperm
    refine ⟨m', fs, hrel, hhalf, ?_, fun i => (hframe i).imp_right .inl⟩
    have hsame : (v.pools (⟨extent ([⟨n, true⟩] ++ [⟨k, false⟩]), true⟩ :: R)).flatMap Pool.free =
        (v.pools ([⟨n, true⟩] ++ ⟨k, false⟩ :: R)).flatMap Pool.free := by
      rw [Place.free_pools, Place.free_pools]
      simp [frees, Nat.add_assoc]
    rw [hsame]
    exact hperm

/-! ## A new pool -/

/-- A region that lies apart from the pools becomes a pool. -/
theorem Layout.add (h : Layout fl pools) {buf : ℕ} (hn : 16 ≤ n) (hsmall : n < 2 ^ 31) (hbuf : 0 < buf)
    (htop : buf + n + 8 ≤ 2 ^ 32) (hapart : ∀ p ∈ pools, p.top + 8 ≤ buf ∨ buf + n + 8 ≤ p.base)
    (hfl : buf + n + 8 ≤ fl ∨ fl + 16 ≤ buf) : Layout fl (⟨buf, [⟨n, true⟩]⟩ :: pools) := by
  have hall {R : Pool → Prop} (hnew : R ⟨buf, [⟨n, true⟩]⟩) (hold : ∀ p ∈ pools, R p) :
      ∀ p ∈ (⟨buf, [⟨n, true⟩]⟩ : Pool) :: pools, R p := by
    intro p hp
    rcases List.mem_cons.mp hp with rfl | hp
    · exact hnew
    · exact hold p hp
  have htop' : (⟨buf, [⟨n, true⟩]⟩ : Pool).top = buf + n := by simp [Pool.top]
  have hext : extent [⟨n, true⟩] = n := by simp
  refine ⟨hall (by simpa using hn) h.roomy, hall hbuf h.base_pos, hall ?_ h.small, hall ?_ h.top_le,
    List.pairwise_cons.mpr ⟨fun p hp => ?_, h.apart⟩, hall ?_ h.head_apart, h.head_le⟩
  · rwa [hext]
  · rwa [htop']
  · rw [htop']
    exact (hapart p hp).symm
  · rwa [htop']

/-- A region that is handed to `bpool` becomes a pool that is one free buffer. -/
theorem bpool_heap (h : Heap m fl pools) {buf len : ℕ} (hlen : 24 ≤ len) (hlt : len < 2 ^ 31) (hbuf : 0 < buf)
    (htop : buf + 4 * (len / 4) ≤ 2 ^ 32) (hapart : ∀ p ∈ pools, p.top + 8 ≤ buf ∨ buf + 4 * (len / 4) ≤ p.base)
    (hfl : buf + 4 * (len / 4) ≤ fl ∨ fl + 16 ≤ buf) :
    ∃ m', bpool m fl buf len = some m' ∧ Heap m' fl (⟨buf, [⟨4 * (len / 4) - 8, true⟩]⟩ :: pools) ∧
      ∀ i, m' i = m i ∨ Admin fl (⟨buf, [⟨4 * (len / 4) - 8, true⟩]⟩ :: pools) i := by
  obtain ⟨n, hn⟩ : ∃ n, 4 * (len / 4) = n + 8 := ⟨4 * (len / 4) - 8, by omega⟩
  rw [hn] at htop hapart hfl ⊢
  rw [Nat.add_sub_cancel]
  have hroom : 16 ≤ n := by omega
  have hsmall : n < 2 ^ 31 := by omega
  have hlay := h.toLayout.add hroom hsmall hbuf htop hapart hfl
  have hs : Mark (⟨buf, [⟨n, true⟩]⟩ :: pools) buf := ⟨_, List.mem_cons_self, by simp [Pool.marks, Pool.row, bases]⟩
  have hbn : Mark (⟨buf, [⟨n, true⟩]⟩ :: pools) (buf + n) :=
    ⟨_, List.mem_cons_self, by simp [Pool.marks, Pool.row, bases]⟩
  have hnode : Node fl (⟨buf, [⟨n, true⟩]⟩ :: pools) buf :=
    .inr ⟨_, List.mem_cons_self, by simp [Pool.heads, bases]⟩
  -- the free list so far
  obtain ⟨fs, hr, hperm⟩ := h.ring
  have hnodes : ∀ j ∈ fl :: fs, Node fl (⟨buf, [⟨n, true⟩]⟩ :: pools) j := by
    intro j hj
    rcases node_of_mem_ring hperm hj with rfl | ⟨p, hp, hj⟩
    · exact .inl rfl
    · exact .inr ⟨p, List.mem_cons_of_mem _ hp, hj⟩
  have hnew : buf ∉ fl :: fs := by
    intro hmem
    rcases node_of_mem_ring hperm hmem with heq | ⟨p, hp, hj⟩
    · omega
    · have hlo := Pool.base_le (Pool.heads_subset hj)
      have hhi := Pool.le_top (Pool.heads_subset hj)
      have hap := hapart p hp
      omega
  have hr₁ : (links (setPrevfree m buf 0)).IsRing fl fs := by
    refine hr.congr (fun j hj => ?_) fun j hj => ?_
    · rw [links_next, links_next, flink_setPrevfree (hlay.header_links hs (hnodes j hj))]
    · rw [links_prev, links_prev, blink_setPrevfree (hlay.header_links hs (hnodes j hj))]
  have htags := fun u (hu : Mark (⟨buf, [⟨n, true⟩]⟩ :: pools) u) => enchain_tags hlay hr₁ hnodes hnode hnew hu
  have hcast : 4 * ((len : ℤ) / 4) = n + 8 := by omega
  have hcast' : (n : ℤ) + 8 - 8 = n := by omega
  have hassert : (n : ℤ) % 2 ^ 32 ≤ -(eSent + 1) := by
    rw [eSent]
    omega
  have haddr : addr buf n = buf + n := addr_add (by omega)
  have hfit : bufsize (n : ℤ) = n := bufsize_of_lt (by omega) (by omega)
  have hzero : bufsize 0 = 0 := bufsize_of_lt (by omega) (by omega)
  have hsent : bufsize eSent = eSent := bufsize_of_lt (by rw [eSent]) (by rw [eSent]; omega)
  have hbp : bpool m fl buf len = some (setBsize (setPrevfree (setBsize (enchain (setPrevfree m buf 0) fl buf) buf n)
      (buf + n) n) (buf + n) eSent) := by
    simp only [bpool, hcast, hcast', haddr]
    rw [if_pos hassert, if_pos (linked_of_mem hr₁ (by simp))]
  -- what the writes leave
  have hprevs : ∀ u, Mark (⟨buf, [⟨n, true⟩]⟩ :: pools) u →
      prevfree (setBsize (setPrevfree (setBsize (enchain (setPrevfree m buf 0) fl buf) buf n) (buf + n) n) (buf + n)
        eSent) u = if u = buf + n then (n : ℤ) else if u = buf then 0 else prevfree m u := by
    intro u hu
    rw [prevfree_setBsize (hlay.header_header hu hbn), prevfree_setPrevfree (hlay.header_header hu hbn),
      prevfree_setBsize (hlay.header_header hu hs), (htags u hu).1, prevfree_setPrevfree (hlay.header_header hu hs),
      hfit, hzero]
  have hsizes : ∀ u, Mark (⟨buf, [⟨n, true⟩]⟩ :: pools) u →
      bsize (setBsize (setPrevfree (setBsize (enchain (setPrevfree m buf 0) fl buf) buf n) (buf + n) n) (buf + n)
        eSent) u = if u = buf + n then eSent else if u = buf then (n : ℤ) else bsize m u := by
    intro u hu
    rw [bsize_setBsize (hlay.header_header hu hbn), bsize_setPrevfree (hlay.header_header hu hbn),
      bsize_setBsize (hlay.header_header hu hs), (htags u hu).2, bsize_setPrevfree (hlay.header_header hu hs), hfit,
      hsent]
  refine ⟨_, hbp, { hlay with laid := fun p hp => ?_, ring := ⟨fs ++ [buf], ?_, ?_⟩ }, fun i => ?_⟩
  · rcases List.mem_cons.mp hp with rfl | hp
    · have hne : buf ≠ buf + n := by omega
      simp only [Pool.row, List.cons_append, List.nil_append, Laid, tags_back, tags_size, tag_free, back_free,
        sentinel_tag]
      rw [hprevs _ hs, hprevs _ hbn, hsizes _ hs, hsizes _ hbn, if_neg hne, if_pos rfl, if_pos rfl, if_neg hne,
        if_pos rfl, if_pos rfl]
      simp [sentinel]
    · have hfar : ∀ u ∈ bases p.base p.row, Mark (⟨buf, [⟨n, true⟩]⟩ :: pools) u ∧ u ≠ buf + n ∧ u ≠ buf := by
        intro u hu
        refine ⟨.intro (List.mem_cons_of_mem _ hp) hu, ?_⟩
        rw [← Pool.marks] at hu
        have hlo := Pool.base_le hu
        have hhi := Pool.le_top hu
        have hap := hapart p hp
        omega
      refine (h.laid p hp).congr (fun u hu => ?_) fun u hu => ?_
      · obtain ⟨hu, hne, hne'⟩ := hfar u hu
        rw [tags_back, tags_back, hprevs u hu, if_neg hne, if_neg hne']
      · obtain ⟨hu, hne, hne'⟩ := hfar u hu
        rw [tags_size, tags_size, hsizes u hu, if_neg hne, if_neg hne']
  · have hnodes' : ∀ j ∈ fl :: (fs ++ [buf]), Node fl (⟨buf, [⟨n, true⟩]⟩ :: pools) j := by
      intro j hj
      rw [← List.cons_append, List.mem_append, List.mem_singleton] at hj
      rcases hj with hj | rfl
      · exact hnodes j hj
      · exact hnode
    refine (enchain_ring hlay hr₁ hnodes hnode hnew).congr (fun j hj => ?_) fun j hj => ?_
    · have hj := hnodes' j hj
      rw [links_next, links_next, flink_setBsize (hlay.header_links hbn hj),
        flink_setPrevfree (hlay.header_links hbn hj), flink_setBsize (hlay.header_links hs hj)]
    · have hj := hnodes' j hj
      rw [links_prev, links_prev, blink_setBsize (hlay.header_links hbn hj),
        blink_setPrevfree (hlay.header_links hbn hj), blink_setBsize (hlay.header_links hs hj)]
  · have hfree : ((⟨buf, [⟨n, true⟩]⟩ : Pool) :: pools).flatMap Pool.free = buf :: pools.flatMap Pool.free := by
      simp [Pool.free, frees]
    rw [hfree]
    exact (List.perm_append_singleton buf fs).trans (hperm.cons buf)
  · by_cases hi : Admin fl (⟨buf, [⟨n, true⟩]⟩ :: pools) i
    · exact .inr hi
    · left
      have hfree : ((⟨buf, [⟨n, true⟩]⟩ : Pool) :: pools).flatMap Pool.free = buf :: pools.flatMap Pool.free := by
        simp [Pool.free, frees]
      have h₁ := out_of_header hi hs
      have h₂ := out_of_header hi hbn
      have hlinks : ∀ j ∈ fl :: buf :: fs, i < j + 8 ∨ j + 16 ≤ i := by
        intro j hj
        refine out_of_links hi (List.Perm.refl _) ?_
        rw [hfree]
        simp only [List.mem_cons] at hj ⊢
        exact hj.imp_right fun h => h.imp_right hperm.mem_iff.mp
      have h₃ := hlinks buf (by simp)
      rw [setBsize, setSize, set32_frame (by omega), setPrevfree, setSize, set32_frame (by omega), setBsize, setSize,
        set32_frame (by omega), enchain_frame hlay hr₁ hnode hnew (fun j hj => hlinks j ?_) h₃, setPrevfree, setSize,
        set32_frame (by omega)]
      rcases List.mem_cons.mp hj with rfl | hj
      · exact List.mem_cons_self
      · exact List.mem_cons_of_mem _ (List.mem_cons_of_mem _ hj)

end Shaunos.Mm.Bget
