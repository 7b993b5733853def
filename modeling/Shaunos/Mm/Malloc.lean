import Shaunos.Mm.BgetRun

/-!
# `kmalloc`, `kzalloc` and `kfree`

Reference: `Kernel/malloc.c`.

`kmalloc` is a client of the BGET heap that hands 4 MiB of pages to `bpool` whenever `bget` fails.

* `kmalloc_serves` — a request that fits in 4 MiB is served with one more region at most, by calls that the heap
  allows;
* `kzalloc_serves` — the same for `kzalloc`, and the buffer is clear.
-/

namespace Shaunos.Mm.Bget

open BoundaryTag

/-- `kmalloc`, with what the calls of `alloc_pages` return. The answers that were not asked for are left. -/
def kmalloc (m : Mem) (fl size : ℕ) (pages : List ℕ) : Option (ℕ × Mem × List ℕ) :=
  (bget m fl size).bind fun r =>
    if r.1 = 0 then
      match pages with
      | [] => none
      | newpool :: rest =>
          if newpool = 0 then some (0, r.2, rest)
          else (bpool r.2 fl newpool (4 * 2 ^ 20)).bind fun m => kmalloc m fl size rest
    else some (r.1, r.2, pages)

def kzalloc (m : Mem) (fl size : ℕ) (pages : List ℕ) : Option (ℕ × Mem × List ℕ) :=
  (kmalloc m fl size pages).map fun r => if r.1 = 0 then r else (r.1, r.2.1.memset r.1 0 size, r.2.2)

def kfree (m : Mem) (fl buf : ℕ) : Option Mem := brel m fl buf

/-- `t` is `s` with one more buffer. -/
structure Gets (s t : Sys) (buf size : ℕ) : Prop where
  fresh : s.live buf = none
  live : ∃ data, t.live = Function.update s.live buf (some ⟨size, data⟩)

variable {m₀ m' : Mem} {fl size buf newpool : ℕ} {s t : Sys} {pools : List Pool} {v : Place}

/-- A request for which there is room is served, with a buffer that nobody has. -/
theorem get_serves (himage : Image fl m₀) (hs : Reach (Sys.call fl) (Allowed fl) (.init m₀) s)
    (hok : Allowed fl s (.get size)) (hroom : HasRoom s (blockFor size)) :
    ∃ (buf : ℕ) (t : Sys), buf ≠ 0 ∧ bget s.m fl size = some (buf, t.m) ∧ Gets s t buf size ∧
      Reach (Sys.call fl) (Allowed fl) (.init m₀) t := by
  obtain ⟨pools, h⟩ := inv_of_reach himage hs
  obtain ⟨fs, hr, hperm⟩ := h.heap.ring
  rcases bget_heap h.heap hr hperm hok.1 hok.2 with ⟨hnull, -⟩ | ⟨v, n, m', rfl, hfits, -, hget, hheap, -⟩
  · rcases h.get_cases hok.1 hok.2 with ⟨-, hno⟩ | ⟨⟨buf, m', hget, hbuf⟩, -⟩
    · exact absurd hroom hno
    · rw [hnull] at hget
      exact absurd (Prod.mk.inj (Option.some.inj hget)).1.symm hbuf
  · have hne : v.start + carveAt n (blockFor size) + 8 ≠ 0 := by omega
    have hcall : s.call fl (.get size) = some ⟨m', s.given,
        Function.update s.live (v.start + carveAt n (blockFor size) + 8)
          (some ⟨size, fun i => m' (v.start + carveAt n (blockFor size) + 8 + i)⟩)⟩ := by
      rw [Sys.call, hget, Option.map_some]
      dsimp only
      rw [if_neg hne]
    refine ⟨_, _, hne, hget, ⟨?_, _, rfl⟩, .call hs hok hcall⟩
    -- a buffer that somebody has does not start in a free one
    by_contra hsome
    obtain ⟨l, hl⟩ := Option.ne_none_iff_exists'.mp hsome
    obtain ⟨a, b, hab, heq, -, -⟩ := h.owned _ l hl
    have hout := h.heap.toLayout.not_inside hab
    have hn : 16 ≤ n := h.heap.roomy _ Place.pool_mem ⟨n, true⟩ (by simp [Place.pool])
    have hk : 16 ≤ blockFor size := by
      rw [blockFor]
      omega
    have hat : carveAt n (blockFor size) < n := by
      rw [carveAt]
      split_ifs <;> omega
    omega

/-- A request that fits in 4 MiB is served, and `alloc_pages` is asked only when there is no room, and once. -/
theorem kmalloc_serves (himage : Image fl m₀) (hs : Reach (Sys.call fl) (Allowed fl) (.init m₀) s) (hpos : 0 < size)
    (hfits : blockFor size + 8 ≤ 4 * 2 ^ 20) (hpages : Allowed fl s (.pool newpool (4 * 2 ^ 20))) :
    ∃ (buf : ℕ) (t : Sys) (rest : List ℕ), kmalloc s.m fl size [newpool] = some (buf, t.m, rest) ∧ buf ≠ 0 ∧
      Gets s t buf size ∧ (rest = [newpool] ↔ HasRoom s (blockFor size)) ∧
      Reach (Sys.call fl) (Allowed fl) (.init m₀) t := by
  have hle : size ≤ 2 ^ 31 - 12 := by
    rw [blockFor] at hfits
    omega
  obtain ⟨pools, h⟩ := inv_of_reach himage hs
  by_cases hroom : HasRoom s (blockFor size)
  · obtain ⟨buf, t, hbuf, hget, hgets, ht⟩ := get_serves himage hs ⟨hpos, hle⟩ hroom
    refine ⟨buf, t, [newpool], ?_, hbuf, hgets, iff_of_true rfl hroom, ht⟩
    rw [kmalloc, hget, Option.bind_some, if_neg hbuf]
  · have hnull : bget s.m fl size = some (0, s.m) := by
      rcases h.get_cases hpos hle with ⟨hnull, -⟩ | ⟨-, hyes⟩
      · exact hnull
      · exact absurd hyes hroom
    obtain ⟨u, hcall, hu⟩ := h.pool hpages
    have hreach : Reach (Sys.call fl) (Allowed fl) (.init m₀) u := .call hs hpages hcall
    have hnewpool : newpool ≠ 0 := hpages.2.2.1.ne'
    rw [Sys.call] at hcall
    obtain ⟨m', hbpool, rfl⟩ := Option.map_eq_some_iff.mp hcall
    -- the new region is one free buffer
    have hroom' := Inv.room (v := ⟨[], pools, newpool, [], []⟩) (k := blockFor size) hu (by omega)
    obtain ⟨buf, t, hbuf, hget, ⟨hfresh, data, hlive⟩, ht⟩ := get_serves himage hreach ⟨hpos, hle⟩ hroom'
    refine ⟨buf, t, [], ?_, hbuf, ⟨hfresh, data, hlive⟩, iff_of_false (by simp) hroom, ht⟩
    have hbpool' : bpool s.m fl newpool (4 * 2 ^ 20) = some m' := hbpool
    rw [kmalloc, hnull, Option.bind_some, if_pos rfl]
    dsimp only
    rw [if_neg hnewpool, hbpool', Option.bind_some, kmalloc, hget, Option.bind_some, if_neg hbuf]

/-- Clearing a buffer is a run of writes into it. -/
theorem reach_memset (hs : Reach (Sys.call fl) (Allowed fl) (.init m₀) s) {l : Live} (hl : s.live buf = some l)
    {k : ℕ} (hk : k ≤ l.size) :
    Reach (Sys.call fl) (Allowed fl) (.init m₀) ⟨s.m.memset buf 0 k, s.given,
      Function.update s.live buf (some ⟨l.size, fun i => if i < k then 0 else l.data i⟩)⟩ := by
  induction k with
  | zero =>
      have hm : s.m.memset buf 0 0 = s.m := by
        funext i
        rw [Mem.memset, if_neg (by omega)]
      have hdata : (⟨l.size, fun i => if i < 0 then 0 else l.data i⟩ : Live) = l := by simp
      rw [hm, hdata, ← hl, Function.update_eq_self]
      exact hs
  | succ k ih =>
      refine .call (c := .write buf k 0) (ih (by omega)) ⟨_, Function.update_self .., by dsimp only; omega⟩ ?_
      rw [Sys.call]
      dsimp only
      rw [Function.update_self, Option.map_some]
      congr 2
      · -- one more byte is clear
        funext i
        by_cases hi : i = buf + k
        · rw [hi, Function.update_self, Mem.memset, if_pos (by omega)]
        · rw [Function.update_of_ne hi, Mem.memset, Mem.memset]
          exact if_congr (by omega) rfl rfl
      · rw [Function.update_idem]
        congr 2
        congr 1
        funext i
        by_cases hi : i = k
        · rw [hi, Function.update_self, if_pos (by omega)]
        · rw [Function.update_of_ne hi]
          exact if_congr (by omega) rfl rfl

/-- In every run, a request to `kzalloc` that fits in 4 MiB is served with a buffer that nobody has, all bytes of it are 0,
and the heap has only made calls that are allowed. `alloc_pages` is asked once, exactly when there is no room. -/
theorem kzalloc_serves (himage : Image fl m₀) (hs : Reach (Sys.call fl) (Allowed fl) (.init m₀) s) (hpos : 0 < size)
    (hfits : blockFor size + 8 ≤ 4 * 2 ^ 20) (hpages : Allowed fl s (.pool newpool (4 * 2 ^ 20))) :
    ∃ (buf : ℕ) (t : Sys) (rest : List ℕ), kzalloc s.m fl size [newpool] = some (buf, t.m, rest) ∧ buf ≠ 0 ∧
      Gets s t buf size ∧ (∀ i < size, t.m (buf + i) = 0) ∧ (rest = [newpool] ↔ HasRoom s (blockFor size)) ∧
      Reach (Sys.call fl) (Allowed fl) (.init m₀) t := by
  obtain ⟨buf, t, rest, hmalloc, hbuf, ⟨hfresh, data, hlive⟩, hrest, ht⟩ :=
    kmalloc_serves himage hs hpos hfits hpages
  have hl : t.live buf = some ⟨size, data⟩ := by rw [hlive, Function.update_self]
  refine ⟨buf, _, rest, ?_, hbuf, ⟨hfresh, fun i => if i < size then 0 else data i, ?_⟩, fun i hi => ?_, hrest,
    reach_memset ht hl le_rfl⟩
  · rw [kzalloc, hmalloc, Option.map_some, if_neg hbuf]
  · dsimp only
    rw [hlive, Function.update_idem]
  · have hclear : t.m.memset buf 0 size (buf + i) = 0 := by rw [Mem.memset, if_pos (by omega)]
    exact hclear

theorem allowed_pages : Allowed 64 (.init image) (.pool 8192 (4 * 2 ^ 20)) := by
  refine ⟨by norm_num, by norm_num, by norm_num, by norm_num, ?_, by norm_num⟩
  intro r hr
  cases hr

theorem kzalloc_serves_first : ∃ (buf : ℕ) (t : Sys) (rest : List ℕ),
    kzalloc (Sys.init image).m 64 100 [8192] = some (buf, t.m, rest) ∧ buf ≠ 0 ∧ Gets (.init image) t buf 100 ∧
      (∀ i < 100, t.m (buf + i) = 0) ∧ (rest = [8192] ↔ HasRoom (.init image) (blockFor 100)) ∧
      Reach (Sys.call 64) (Allowed 64) (.init image) t :=
  kzalloc_serves image_image .start (by norm_num) (by decide) allowed_pages

end Shaunos.Mm.Bget
