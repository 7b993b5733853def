import Shaunos.Common.Run
import Shaunos.Mm.BgetOps

/-!
# Runs of the BGET heap

Reference: `Kernel/bget.c`.

A run starts with the empty `freelist` of the program image. Clients hand regions to `bpool`, get buffers, write into
them and give them back. `Sys.live` records what every client has written into its buffer.

* `heap_runs` — no call fails, buffers do not overlap, and every buffer holds what its client has written;
* `bget_null_iff` — `bget` fails exactly when no pool has room between the buffers in use;
* `bget_best_fit` — a request is served from the first of the smallest free buffers that are big enough;
* `all_free_again` — when nothing is in use, every pool is one free buffer again.
-/

namespace Shaunos.Mm.Bget

open BoundaryTag

/-- A buffer as its client knows it. -/
structure Live where
  /-- What was asked for. -/
  size : ℕ
  /-- What the buffer held when it was handed out, and what the client has written since. -/
  data : ℕ → BitVec 8

/-- The memory and the clients. -/
structure Sys where
  m : Mem
  /-- The regions handed to `bpool`, with their lengths in whole quanta. -/
  given : List (ℕ × ℕ)
  live : ℕ → Option Live

/-- The calls that clients make, and the bytes they write. -/
inductive Call where
  | pool (buf len : ℕ)
  | get (size : ℕ)
  | rel (buf : ℕ)
  | write (buf i : ℕ) (v : BitVec 8)

/-- One call. -/
def Sys.call (fl : ℕ) (s : Sys) : Call → Option Sys
  | .pool buf len =>
      (bpool s.m fl buf len).map fun m => { s with m, given := (buf, 4 * (len / 4)) :: s.given }
  | .get size =>
      (bget s.m fl size).map fun r =>
        { s with
          m := r.2
          live := if r.1 = 0 then s.live
            else Function.update s.live r.1 (some ⟨size, fun i => r.2 (r.1 + i)⟩) }
  | .rel buf => (brel s.m fl buf).map fun m => { s with m, live := Function.update s.live buf none }
  | .write buf i v =>
      (s.live buf).map fun l =>
        { s with
          m := Function.update s.m (buf + i) v
          live := Function.update s.live buf (some { l with data := Function.update l.data i v }) }

/-- What a client may do. A region is fresh, has room for a buffer and the sentinel, and its length fits in a
`bufsize`. A request is small enough to be rounded up in a `bufsize`. A client gives back and writes what it has. -/
def Allowed (fl : ℕ) (s : Sys) : Call → Prop
  | .pool buf len =>
      24 ≤ len ∧ len < 2 ^ 31 ∧ 0 < buf ∧ buf + 4 * (len / 4) ≤ 2 ^ 32 ∧
        (∀ r ∈ s.given, r.1 + r.2 ≤ buf ∨ buf + 4 * (len / 4) ≤ r.1) ∧
        (buf + 4 * (len / 4) ≤ fl ∨ fl + 16 ≤ buf)
  | .get size => 0 < size ∧ size ≤ 2 ^ 31 - 12
  | .rel buf => (s.live buf).isSome = true
  | .write buf i _ => ∃ l ∈ s.live buf, i < l.size

/-- The program image: `freelist` is linked to itself. -/
structure Image (fl : ℕ) (m : Mem) : Prop where
  flink_eq : flink m fl = fl
  blink_eq : blink m fl = fl
  head_le : fl + 16 ≤ 2 ^ 32

def Sys.init (m : Mem) : Sys := ⟨m, [], fun _ => none⟩

/-! ## The invariant -/

/-- The region of a pool. -/
def Pool.region (p : Pool) : ℕ × ℕ := (p.base, extent p.blocks + 8)

/-- The memory holds a heap of these pools, and the buffers in use are those that clients have. -/
structure Inv (fl : ℕ) (m₀ : Mem) (s : Sys) (pools : List Pool) : Prop where
  heap : Heap s.m fl pools
  given : s.given = pools.map Pool.region
  nonempty : ∀ p ∈ pools, 16 ≤ extent p.blocks
  owned : ∀ buf, ∀ l ∈ s.live buf, ∃ a b, Used pools a b ∧ buf = a + 8 ∧ l.size + 8 ≤ b.size ∧
    ∀ i < l.size, s.m (buf + i) = l.data i
  used : ∀ a b, Used pools a b → (s.live (a + 8)).isSome = true
  outside : ∀ i, i < fl ∨ fl + 16 ≤ i → (∀ p ∈ pools, i < p.base ∨ p.top + 8 ≤ i) → s.m i = m₀ i

variable {m m₀ m' : Mem} {fl i n k a u : ℕ} {s t : Sys} {pools pools' : List Pool} {p : Pool} {v : Place}
  {b e : Chunk} {ms ms' : List Chunk} {fs : List ℕ}

theorem Inv.init (h : Image fl m) : Inv fl m (.init m) [] := by
  have hnone : ∀ a b, ¬ Used [] a b := by
    rintro a b ⟨p, hp, -⟩
    cases hp
  refine ⟨⟨⟨by simp, by simp, by simp, by simp, .nil, by simp, h.head_le⟩, by simp, [], ?_, .refl []⟩, rfl, by simp,
    fun _ l hl => ?_, fun a b hab => absurd hab (hnone a b), fun _ _ _ => rfl⟩
  · have hnext : (links m).next fl = fl := by rw [links_next, h.flink_eq]
    have hprev : (links m).prev fl = fl := by rw [links_prev, h.blink_eq]
    exact .of_selfLoop hnext hprev
  · cases hl

theorem Place.region_eq (hext : extent ms' = extent ms) :
    (v.pools ms').map Pool.region = (v.pools ms).map Pool.region := by
  simp [pools, pool, Pool.region, hext]

/-- What an exchange of buffers at a place leaves of the regions. -/
theorem Inv.region (h : Inv fl m₀ s (v.pools ms)) (hext : extent ms' = extent ms) :
    s.given = (v.pools ms').map Pool.region ∧ (∀ p ∈ v.pools ms', 16 ≤ extent p.blocks) ∧
      ∀ i, (∀ p ∈ v.pools ms', i < p.base ∨ p.top + 8 ≤ i) → ∀ p ∈ v.pools ms, i < p.base ∨ p.top + 8 ≤ i := by
  refine ⟨h.given.trans (Place.region_eq hext).symm, fun p hp => ?_, fun i hi p hp => ?_⟩
  · rcases Place.mem_pools.mp hp with rfl | hp
    · have hpool := h.nonempty _ Place.pool_mem
      simp only [Place.pool, extent_append] at hpool ⊢
      omega
    · exact h.nonempty p (Place.mem_pools.mpr (.inr hp))
  · rcases Place.mem_pools.mp hp with rfl | hp
    · have hpool := hi _ Place.pool_mem
      rw [Place.pool_top] at hpool ⊢
      rwa [hext] at hpool
    · exact hi p (Place.mem_pools.mpr (.inr hp))

/-- Bytes of a buffer in use stay as they are when the allocator keeps to its own bytes. -/
theorem owned_frame (hold : Layout fl pools) (hnew : Layout fl pools')
    (hframe : ∀ i, m' i = m i ∨ Admin fl pools i ∨ Admin fl pools' i) (hb : Used pools a b) (hb' : Used pools' a b)
    (hlo : a + 8 ≤ i) (hhi : i < a + b.size) : m' i = m i := by
  rcases hframe i with h | h | h
  · exact h
  · exact absurd h (hold.not_admin hb hlo hhi)
  · exact absurd h (hnew.not_admin hb' hlo hhi)

/-- Bytes outside the pools stay as they are. -/
theorem outside_frame (hold : Layout fl pools) (hnew : Layout fl pools')
    (hframe : ∀ i, m' i = m i ∨ Admin fl pools i ∨ Admin fl pools' i) (hfl : i < fl ∨ fl + 16 ≤ i)
    (hi : ∀ p ∈ pools, i < p.base ∨ p.top + 8 ≤ i) (hi' : ∀ p ∈ pools', i < p.base ∨ p.top + 8 ≤ i) :
    m' i = m i := by
  have hnot {qs : List Pool} (hlay : Layout fl qs) (hq : ∀ p ∈ qs, i < p.base ∨ p.top + 8 ≤ i) : ¬ Admin fl qs i := by
    intro hadmin
    rcases hlay.admin_region hadmin with h | ⟨p, hp, h⟩
    · omega
    · have := hq p hp
      omega
  rcases hframe i with h | h | h
  · exact h
  · exact absurd h (hnot hold hi)
  · exact absurd h (hnot hnew hi')

/-! ## The calls -/

/-- The buffer that `carve` makes. -/
theorem busy_carve (a n k : ℕ) :
    busy a (carve n k) = [(a + carveAt n k, ⟨if k + 16 < n then k else n, false⟩)] := by
  rw [carve, carveAt]
  split_ifs <;> simp [busy]

theorem extent_carve (n k : ℕ) : extent (carve n k) = n := by
  rw [carve]
  split_ifs with h
  · simp only [extent_cons, extent_nil]
    omega
  · simp

theorem used_carve (hcut : Used (v.pools (carve n k)) a b) : Used (v.pools [⟨n, true⟩]) a b ∨
    (a = v.start + carveAt n k ∧ b = ⟨if k + 16 < n then k else n, false⟩) := by
  rw [used_iff_mem, busy_pools, busy_carve, extent_carve] at hcut
  rw [used_iff_mem, busy_pools]
  have hnone : busy v.start [⟨n, true⟩] = [] := rfl
  have hext : extent [⟨n, true⟩] = n := by simp
  rw [hnone, hext]
  simp only [List.mem_append, List.mem_singleton, Prod.mk.injEq, List.not_mem_nil, or_false] at hcut ⊢
  rcases hcut with (h | h) | h
  · exact .inl (.inl h)
  · exact .inr h
  · exact .inl (.inr h)

theorem used_of_carve (hused : Used (v.pools [⟨n, true⟩]) a b) : Used (v.pools (carve n k)) a b := by
  rw [used_iff_mem, busy_pools] at hused ⊢
  have hnone : busy v.start [⟨n, true⟩] = [] := rfl
  have hext : extent [⟨n, true⟩] = n := by simp
  rw [hnone, hext] at hused
  rw [extent_carve]
  simp only [List.mem_append, List.not_mem_nil, or_false] at hused ⊢
  rcases hused with h | h
  · exact .inl (.inl h)
  · exact .inr h

theorem used_carved : Used (v.pools (carve n k)) (v.start + carveAt n k) ⟨if k + 16 < n then k else n, false⟩ := by
  rw [used_iff_mem, busy_pools, busy_carve]
  simp

theorem Inv.get {size : ℕ} (h : Inv fl m₀ s pools) (hpos : 0 < size) (hle : size ≤ 2 ^ 31 - 12) :
    ∃ t pools', s.call fl (.get size) = some t ∧ Inv fl m₀ t pools' := by
  obtain ⟨fs, hr, hperm⟩ := h.heap.ring
  rcases bget_heap h.heap hr hperm hpos hle with ⟨hnull, -⟩ | ⟨v, n, m', rfl, hfits, -, hget, hheap, hframe⟩
  · refine ⟨s, pools, ?_, h⟩
    rw [Sys.call, hnull, Option.map_some, if_pos rfl]
  · have hne : v.start + carveAt n (blockFor size) + 8 ≠ 0 := by omega
    have hext : extent (carve n (blockFor size)) = extent [⟨n, true⟩] := by simp [extent_carve]
    obtain ⟨hgiven, hnonempty, hregion⟩ := h.region hext
    have hcall : s.call fl (.get size) = some ⟨m', s.given,
        Function.update s.live (v.start + carveAt n (blockFor size) + 8)
          (some ⟨size, fun i => m' (v.start + carveAt n (blockFor size) + 8 + i)⟩)⟩ := by
      rw [Sys.call, hget, Option.map_some]
      dsimp only
      rw [if_neg hne]
    refine ⟨_, v.pools (carve n (blockFor size)), hcall, hheap, hgiven, hnonempty, fun buf l hl => ?_,
      fun a b hab => ?_, fun i hfl hi => ?_⟩
    · by_cases hbuf : buf = v.start + carveAt n (blockFor size) + 8
      · subst hbuf
        simp only [Function.update_self, Option.mem_def, Option.some.injEq] at hl
        subst hl
        have hroom : size + 8 ≤ if blockFor size + 16 < n then blockFor size else n := by
          have hround : size + 8 ≤ blockFor size := by
            rw [blockFor]
            omega
          split_ifs <;> omega
        exact ⟨_, _, used_carved, rfl, hroom, fun _ _ => rfl⟩
      · simp only [Function.update_of_ne hbuf] at hl
        obtain ⟨a, b, hab, rfl, hsize, hdata⟩ := h.owned buf l hl
        refine ⟨a, b, used_of_carve hab, rfl, hsize, fun i hi => ?_⟩
        exact (owned_frame h.heap.toLayout hheap.toLayout hframe hab (used_of_carve hab) (by omega) (by omega)).trans
          (hdata i hi)
    · by_cases ha : a + 8 = v.start + carveAt n (blockFor size) + 8
      · simp only [ha, Function.update_self, Option.isSome_some]
      · simp only [Function.update_of_ne ha]
        rcases used_carve hab with hab | ⟨rfl, -⟩
        · exact h.used a b hab
        · exact absurd rfl ha
    · have hi' := hregion i hi
      exact (outside_frame h.heap.toLayout hheap.toLayout hframe hfl hi' hi).trans (h.outside i hfl hi')

theorem Inv.rel {buf : ℕ} (h : Inv fl m₀ s pools) (hlive : (s.live buf).isSome = true) :
    ∃ t pools', s.call fl (.rel buf) = some t ∧ Inv fl m₀ t pools' := by
  obtain ⟨l, hl⟩ := Option.isSome_iff_exists.mp hlive
  obtain ⟨a, b, hab, rfl, -, -⟩ := h.owned buf l hl
  obtain ⟨v, L, R, m', rfl, rfl, hfree, hrel, hheap, hframe⟩ := brel_heap h.heap hab
  have hbusy : b.free = false := by
    obtain ⟨p, -, xs, ys, -, hb, -⟩ := hab
    exact hb
  have hext : extent [⟨extent (L ++ b :: R), true⟩] = extent (L ++ b :: R) := by simp
  obtain ⟨hgiven, hnonempty, hregion⟩ := h.region hext
  have hpos : 0 < b.size := by
    have := h.heap.roomy _ Place.pool_mem b (by simp [Place.pool])
    omega
  -- what is in use before and after
  have hL : busy v.start L = [] := busy_eq_nil fun c hc => hfree c (List.mem_append_left R hc)
  have hR : busy (v.start + extent L + b.size) R = [] := busy_eq_nil fun c hc => hfree c (List.mem_append_right L hc)
  have hmid : busy v.start (L ++ b :: R) = [(v.start + extent L, b)] := by
    rw [busy_append, hL, busy, if_neg (by simp [hbusy]), hR, List.nil_append]
  have hmid' : busy v.start [⟨extent (L ++ b :: R), true⟩] = [] := rfl
  have hback : ∀ a' b', Used (v.pools [⟨extent (L ++ b :: R), true⟩]) a' b' → Used (v.pools (L ++ b :: R)) a' b' := by
    intro a' b' hab'
    rw [used_iff_mem, busy_pools, hmid', hext] at hab'
    rw [used_iff_mem, busy_pools, hmid]
    simp only [List.mem_append, List.not_mem_nil, or_false] at hab' ⊢
    rcases hab' with hab' | hab'
    · exact .inl (.inl hab')
    · exact .inr hab'
  have hforth : ∀ a' b', Used (v.pools (L ++ b :: R)) a' b' → a' ≠ v.start + extent L →
      Used (v.pools [⟨extent (L ++ b :: R), true⟩]) a' b' := by
    intro a' b' hab' hne
    rw [used_iff_mem, busy_pools, hmid] at hab'
    rw [used_iff_mem, busy_pools, hmid', hext]
    simp only [List.mem_append, List.mem_singleton, Prod.mk.injEq, List.not_mem_nil, or_false] at hab' ⊢
    rcases hab' with (hab' | hab') | hab'
    · exact .inl hab'
    · exact absurd hab'.1 hne
    · exact .inr hab'
  have hcall : s.call fl (.rel (v.start + extent L + 8)) =
      some ⟨m', s.given, Function.update s.live (v.start + extent L + 8) none⟩ := by
    rw [Sys.call, hrel, Option.map_some]
  refine ⟨_, v.pools [⟨extent (L ++ b :: R), true⟩], hcall, hheap, hgiven, hnonempty, fun buf l hl => ?_,
    fun a b' hab' => ?_, fun i hfl hi => ?_⟩
  · have hbuf : buf ≠ v.start + extent L + 8 := by
      rintro rfl
      simp at hl
    simp only [Function.update_of_ne hbuf] at hl
    obtain ⟨a', b', hab', rfl, hsize, hdata⟩ := h.owned buf l hl
    have hnew := hforth a' b' hab' (by omega)
    refine ⟨a', b', hnew, rfl, hsize, fun i hi => ?_⟩
    exact (owned_frame h.heap.toLayout hheap.toLayout hframe hab' hnew (by omega) (by omega)).trans (hdata i hi)
  · have hout := hheap.toLayout.not_inside hab'
    simp only [extent_append, extent_cons] at hout
    have hne : a + 8 ≠ v.start + extent L + 8 := by omega
    simp only [Function.update_of_ne hne]
    exact h.used a b' (hback a b' hab')
  · have hi' := hregion i hi
    exact (outside_frame h.heap.toLayout hheap.toLayout hframe hfl hi' hi).trans (h.outside i hfl hi')

theorem Inv.pool {buf len : ℕ} (h : Inv fl m₀ s pools) (hok : Allowed fl s (.pool buf len)) :
    ∃ t, s.call fl (.pool buf len) = some t ∧
      Inv fl m₀ t (⟨buf, [⟨4 * (len / 4) - 8, true⟩]⟩ :: pools) := by
  obtain ⟨hlen, hlt, hbuf, htop, hapart, hfl⟩ := hok
  have hapart' : ∀ p ∈ pools, p.top + 8 ≤ buf ∨ buf + 4 * (len / 4) ≤ p.base := by
    intro p hp
    have hr := hapart p.region (by rw [h.given]; exact List.mem_map_of_mem hp)
    simp only [Pool.region] at hr
    rw [Pool.top]
    omega
  obtain ⟨m', hbp, hheap, hframe⟩ := bpool_heap h.heap hlen hlt hbuf htop hapart' hfl
  obtain ⟨n, hn⟩ : ∃ n, 4 * (len / 4) = n + 8 := ⟨4 * (len / 4) - 8, by omega⟩
  have hsub : 4 * (len / 4) - 8 = n := by omega
  rw [hsub] at hheap hframe ⊢
  have hused : ∀ a b, Used (⟨buf, [⟨n, true⟩]⟩ :: pools) a b ↔ Used pools a b := by
    intro a b
    rw [used_iff_mem, used_iff_mem, List.flatMap_cons]
    simp [busy]
  have hframe' : ∀ i, m' i = s.m i ∨ Admin fl pools i ∨ Admin fl (⟨buf, [⟨n, true⟩]⟩ :: pools) i :=
    fun i => (hframe i).imp_right .inr
  have hcall : s.call fl (.pool buf len) = some ⟨m', (buf, 4 * (len / 4)) :: s.given, s.live⟩ := by
    rw [Sys.call, hbp, Option.map_some]
  refine ⟨_, hcall, hheap, ?_, fun p hp => ?_, fun buf' l hl => ?_, fun a b hab => ?_,
    fun i hfl hi => ?_⟩
  · simp [h.given, Pool.region, hn]
  · rcases List.mem_cons.mp hp with rfl | hp
    · simp only [extent_cons, extent_nil]
      omega
    · exact h.nonempty p hp
  · obtain ⟨a, b, hab, rfl, hsize, hdata⟩ := h.owned buf' l hl
    have hab' := (hused a b).mpr hab
    refine ⟨a, b, hab', rfl, hsize, fun i hi => ?_⟩
    exact (owned_frame h.heap.toLayout hheap.toLayout hframe' hab hab' (by omega) (by omega)).trans (hdata i hi)
  · exact h.used a b ((hused a b).mp hab)
  · have hi' : ∀ p ∈ pools, i < p.base ∨ p.top + 8 ≤ i := fun p hp => hi p (List.mem_cons_of_mem _ hp)
    exact (outside_frame h.heap.toLayout hheap.toLayout hframe' hfl hi' hi).trans (h.outside i hfl hi')

theorem Inv.write {buf i : ℕ} {x : BitVec 8} (h : Inv fl m₀ s pools) (hok : Allowed fl s (.write buf i x)) :
    ∃ t pools', s.call fl (.write buf i x) = some t ∧ Inv fl m₀ t pools' := by
  obtain ⟨l, hl, hi⟩ := hok
  obtain ⟨a, b, hab, rfl, hsize, hdata⟩ := h.owned buf l hl
  have hcall : s.call fl (.write (a + 8) i x) = some ⟨Function.update s.m (a + 8 + i) x, s.given,
      Function.update s.live (a + 8) (some { l with data := Function.update l.data i x })⟩ := by
    rw [Sys.call, hl, Option.map_some]
  refine ⟨_, pools, hcall, h.heap.congr fun j hj => ?_, h.given, h.nonempty, fun buf l' hl' => ?_, fun a' b' hab' => ?_,
    fun j hfl hj => ?_⟩
  · have hne : j ≠ a + 8 + i := by
      rintro rfl
      exact h.heap.toLayout.not_admin hab (by omega) (by omega) hj
    exact Function.update_of_ne hne _ _
  · by_cases hbuf : buf = a + 8
    · subst hbuf
      simp only [Function.update_self, Option.mem_def, Option.some.injEq] at hl'
      subst hl'
      refine ⟨a, b, hab, rfl, hsize, fun j hj => ?_⟩
      by_cases hji : j = i
      · dsimp only
        rw [hji, Function.update_self, Function.update_self]
      · dsimp only
        rw [Function.update_of_ne (by omega), Function.update_of_ne hji]
        exact hdata j hj
    · simp only [Function.update_of_ne hbuf] at hl'
      obtain ⟨a', b', hab', rfl, hsize', hdata'⟩ := h.owned buf l' hl'
      refine ⟨a', b', hab', rfl, hsize', fun j hj => ?_⟩
      have hap := h.heap.toLayout.used_apart hab hab' (by omega)
      dsimp only
      rw [Function.update_of_ne (by omega)]
      exact hdata' j hj
  · by_cases ha : a' + 8 = a + 8
    · simp only [ha, Function.update_self, Option.isSome_some]
    · simp only [Function.update_of_ne ha]
      exact h.used a' b' hab'
  · obtain ⟨p, hp, xs, ys, hblocks, -, rfl⟩ := hab
    have hout := hj p hp
    simp only [Pool.top, hblocks, extent_append, extent_cons] at hout
    dsimp only
    rw [Function.update_of_ne (by omega)]
    exact h.outside j hfl hj

/-- Every allowed call returns and keeps the invariant. -/
theorem Inv.call {c : Call} (h : Inv fl m₀ s pools) (hok : Allowed fl s c) :
    ∃ t pools', s.call fl c = some t ∧ Inv fl m₀ t pools' := by
  cases c with
  | pool buf len =>
      obtain ⟨t, hcall, ht⟩ := h.pool hok
      exact ⟨t, _, hcall, ht⟩
  | get size => exact h.get hok.1 hok.2
  | rel buf => exact h.rel hok
  | write buf i v => exact h.write hok

theorem inv_of_reach (himage : Image fl m₀) (hs : Reach (Sys.call fl) (Allowed fl) (.init m₀) s) :
    ∃ pools, Inv fl m₀ s pools := by
  let Good (s : Sys) : Prop := ∃ pools, Inv fl m₀ s pools
  have hstep : ∀ s c t, Good s → Allowed fl s c → s.call fl c = some t → Good t := by
    rintro s c t ⟨pools, h⟩ hok hcall
    obtain ⟨t', pools', hcall', h'⟩ := h.call hok
    obtain rfl : t' = t := Option.some.inj (hcall'.symm.trans hcall)
    exact ⟨pools', h'⟩
  have hgood : Good s := hs.invariant ⟨[], .init himage⟩ hstep
  exact hgood

/-! ## Every run -/

/-- `freelist` at the address 64. -/
def image : Mem := (Mem.zero.set32 72 64).set32 76 64

theorem image_image : Image 64 image := by
  refine ⟨?_, ?_, by norm_num⟩
  · rw [flink, image, Mem.get32_set32_of_disjoint (by omega), Mem.get32_set32_self]
    norm_num
  · rw [blink, image, Mem.get32_set32_self]
    norm_num

theorem allowed_pool : Allowed 64 (.init image) (.pool 4096 256) := by
  refine ⟨by norm_num, by norm_num, by norm_num, by norm_num, ?_, by norm_num⟩
  intro r hr
  cases hr

/-- In every run, every allowed call returns. A buffer lies in a region behind a header, it holds what its client has
written, and buffers do not overlap. Outside the regions and `freelist` no byte changes. -/
theorem heap_runs (himage : Image fl m₀) (hs : Reach (Sys.call fl) (Allowed fl) (.init m₀) s) :
    (∀ c, Allowed fl s c → (s.call fl c).isSome = true) ∧
      (∀ buf, ∀ l ∈ s.live buf, (∃ r ∈ s.given, r.1 + 8 ≤ buf ∧ buf + l.size + 8 ≤ r.1 + r.2) ∧
        ∀ i < l.size, s.m (buf + i) = l.data i) ∧
      (∀ buf buf', ∀ l ∈ s.live buf, ∀ l' ∈ s.live buf', buf ≠ buf' →
        buf + l.size ≤ buf' ∨ buf' + l'.size ≤ buf) ∧
      ∀ i, i < fl ∨ fl + 16 ≤ i → (∀ r ∈ s.given, i < r.1 ∨ r.1 + r.2 ≤ i) → s.m i = m₀ i := by
  obtain ⟨pools, h⟩ := inv_of_reach himage hs
  refine ⟨fun c hok => ?_, fun buf l hl => ?_, fun buf buf' l hl l' hl' hne => ?_, fun i hfl hi => ?_⟩
  · obtain ⟨t, -, hcall, -⟩ := h.call hok
    exact Option.isSome_iff_exists.mpr ⟨t, hcall⟩
  · obtain ⟨a, b, ⟨p, hp, xs, ys, hblocks, -, rfl⟩, rfl, hsize, hdata⟩ := h.owned buf l hl
    refine ⟨⟨p.region, by rw [h.given]; exact List.mem_map_of_mem hp, ?_, ?_⟩, hdata⟩
    · simp only [Pool.region]
      omega
    · simp only [Pool.region, hblocks, extent_append, extent_cons]
      omega
  · obtain ⟨a, b, hab, rfl, hsize, -⟩ := h.owned buf l hl
    obtain ⟨a', b', hab', rfl, hsize', -⟩ := h.owned buf' l' hl'
    have hap := h.heap.toLayout.used_apart hab hab' (by omega)
    omega
  · refine h.outside i hfl fun p hp => ?_
    have hr := hi p.region (by rw [h.given]; exact List.mem_map_of_mem hp)
    rw [Pool.top]
    simp only [Pool.region] at hr
    omega

theorem heap_runs_pool : ∃ s, (Sys.init image).call 64 (.pool 4096 256) = some s ∧
    (s.call 64 (.get 10)).isSome = true := by
  obtain ⟨s, -, hcall, -⟩ := (Inv.init image_image).call allowed_pool
  refine ⟨s, hcall, (heap_runs image_image (.call .start allowed_pool hcall)).1 (.get 10) ?_⟩
  exact ⟨by norm_num, by norm_num⟩

/-! ## Room -/

theorem Heap.used_size (h : Heap m fl pools) (hab : Used pools a b) : bsize m a = -b.size := by
  obtain ⟨p, hp, xs, ys, hblocks, hbusy, rfl⟩ := hab
  have hlaid := h.laid p hp
  rw [Pool.row, hblocks, List.append_assoc, List.cons_append] at hlaid
  have hsize := hlaid.at.2.1
  rw [tags_size, Chunk.tag, if_neg (by simp [hbusy])] at hsize
  exact hsize

/-- Some pool has `k` bytes that no buffer in use touches, its header included. -/
def HasRoom (s : Sys) (k : ℕ) : Prop :=
  ∃ r ∈ s.given, ∃ a, r.1 ≤ a ∧ a + k + 8 ≤ r.1 + r.2 ∧ ∀ buf, (s.live buf).isSome = true →
    buf - 8 + (bsize s.m (buf - 8)).natAbs ≤ a ∨ a + k ≤ buf - 8

/-- A free buffer is room. -/
theorem Inv.room (h : Inv fl m₀ s (v.pools [⟨n, true⟩])) (hle : k ≤ n) : HasRoom s k := by
  refine ⟨(v.pool [⟨n, true⟩]).region, by rw [h.given]; exact List.mem_map_of_mem Place.pool_mem, v.start, ?_, ?_,
    fun buf hlive => ?_⟩
  · simp only [Pool.region, Place.pool, Place.start]
    omega
  · simp only [Pool.region, Place.pool, Place.start, extent_append, extent_cons]
    omega
  · obtain ⟨l, hl⟩ := Option.isSome_iff_exists.mp hlive
    obtain ⟨a, b, hab, rfl, -, -⟩ := h.owned buf l hl
    have hin := h.heap.toLayout.not_inside hab
    rw [Nat.add_sub_cancel, h.heap.used_size hab]
    obtain ⟨p, hp, xs, ys, hblocks, -, rfl⟩ := hab
    have hmark : Mark (v.pools [⟨n, true⟩]) v.start := Place.mark_mid [] rfl
    have hn := h.heap.roomy _ Place.pool_mem ⟨n, true⟩ (by simp [Place.pool])
    dsimp only at hn
    have hap := h.heap.toLayout.block_apart hp hblocks hmark (by omega)
    omega

/-- A request fails and there is no room, or it is served. -/
theorem Inv.get_cases (h : Inv fl m₀ s pools) {size : ℕ} (hpos : 0 < size) (hle : size ≤ 2 ^ 31 - 12) :
    (bget s.m fl size = some (0, s.m) ∧ ¬ HasRoom s (blockFor size)) ∨
      ((∃ buf m', bget s.m fl size = some (buf, m') ∧ buf ≠ 0) ∧ HasRoom s (blockFor size)) := by
  obtain ⟨fs, hr, hperm⟩ := h.heap.ring
  have hk : 0 < blockFor size := by
    rw [blockFor]
    omega
  rcases bget_heap h.heap hr hperm hpos hle with ⟨hnull, hsmall⟩ | ⟨v, n, m', rfl, hfits, -, hget, -⟩
  · refine .inl ⟨hnull, ?_⟩
    rintro ⟨r, hmem, a, hlo, hhi, hroom⟩
    rw [h.given] at hmem
    obtain ⟨p, hp, rfl⟩ := List.mem_map.mp hmem
    simp only [Pool.region] at hlo hhi
    have hlaid := h.heap.laid p hp
    rw [Pool.row, laid_append] at hlaid
    have hsizes : ∀ b ∈ p.blocks, 0 < b.size := by
      intro b hb
      have := h.heap.roomy p hp b hb
      omega
    have hgap : ∀ xs b ys, p.blocks = xs ++ b :: ys → b.free = false →
        p.base + extent xs + b.size ≤ a ∨ a + blockFor size ≤ p.base + extent xs := by
      intro xs b ys hblocks hbusy
      have hab : Used pools (p.base + extent xs) b := ⟨p, hp, xs, ys, hblocks, hbusy, rfl⟩
      have hout := hroom _ (h.used _ b hab)
      rw [Nat.add_sub_cancel, h.heap.used_size hab] at hout
      omega
    obtain ⟨xs, b, ys, hblocks, hfree, hlo', hhi'⟩ := gap_of_room hlaid.1 hsizes hk hlo (by omega) hgap
    have hmem : p.base + extent xs ∈ fs := by
      refine hperm.mem_iff.mpr (List.mem_flatMap.mpr ⟨p, hp, ?_⟩)
      exact mem_frees.mpr ⟨xs, b, ys, hblocks, hfree, rfl⟩
    have hrow : p.row = xs ++ b :: (ys ++ [sentinel]) := by simp [Pool.row, hblocks]
    have hsize := h.heap.laid p hp
    rw [hrow] at hsize
    have hsize := hsize.at.2.1
    rw [tags_size, Chunk.tag, if_pos hfree] at hsize
    have hshort := hsmall _ hmem
    omega
  · exact .inr ⟨⟨_, m', hget, by omega⟩, h.room hfits⟩

/-- `bget` fails exactly when no pool has room. -/
theorem bget_null_iff (himage : Image fl m₀) (hs : Reach (Sys.call fl) (Allowed fl) (.init m₀) s) {size : ℕ}
    (hok : Allowed fl s (.get size)) :
    (∃ m', bget s.m fl size = some (0, m')) ↔ ¬ HasRoom s (blockFor size) := by
  obtain ⟨pools, h⟩ := inv_of_reach himage hs
  rcases h.get_cases hok.1 hok.2 with ⟨hnull, hno⟩ | ⟨⟨buf, m', hget, hbuf⟩, hroom⟩
  · exact iff_of_true ⟨s.m, hnull⟩ hno
  · refine iff_of_false ?_ fun hno => hno hroom
    rintro ⟨m'', hnull⟩
    rw [hget] at hnull
    exact hbuf (Prod.mk.inj (Option.some.inj hnull)).1

theorem bget_null_iff_pool : ∃ s, (Sys.init image).call 64 (.pool 4096 256) = some s ∧
    ((∃ m', bget s.m 64 (10 : ℕ) = some (0, m')) ↔ ¬ HasRoom s (blockFor 10)) := by
  obtain ⟨s, -, hcall, -⟩ := (Inv.init image_image).call allowed_pool
  exact ⟨s, hcall, bget_null_iff image_image (.call .start allowed_pool hcall) ⟨by norm_num, by norm_num⟩⟩

/-- A request is served from the first of the smallest free buffers that are big enough: the upper end of it goes to the
client, or the whole of it when 16 bytes or less would be left over. -/
theorem bget_best_fit (himage : Image fl m₀) (hs : Reach (Sys.call fl) (Allowed fl) (.init m₀) s) {size buf : ℕ}
    (hok : Allowed fl s (.get size)) (hget : bget s.m fl size = some (buf, m')) (hbuf : buf ≠ 0) :
    ∃ fs b, (links s.m).walk fl (2 ^ 32) (flink s.m fl) = some fs ∧ FirstLeast (waste s.m (blockFor size)) fs b ∧
      buf = b + carveAt (bsize s.m b).toNat (blockFor size) + 8 := by
  obtain ⟨pools, h⟩ := inv_of_reach himage hs
  obtain ⟨fs, hr, hperm⟩ := h.heap.ring
  rcases bget_heap h.heap hr hperm hok.1 hok.2 with ⟨hnull, -⟩ | ⟨v, n, m'', rfl, -, hbest, hget', -⟩
  · rw [hnull] at hget
    exact absurd (Prod.mk.inj (Option.some.inj hget)).1.symm hbuf
  · rw [hget'] at hget
    obtain ⟨e, zs, hnext⟩ := v.exists_next
    have hwalk := hr.walk (h.heap.toLayout.length_lt hr hperm)
    rw [links_next] at hwalk
    refine ⟨fs, v.start, hwalk, hbest, ?_⟩
    rw [(h.heap.mid_free hnext).2.1, Int.toNat_natCast]
    exact (Prod.mk.inj (Option.some.inj hget)).1.symm

theorem bget_best_fit_pool : ∃ s buf m', (Sys.init image).call 64 (.pool 4096 256) = some s ∧
    bget s.m 64 (10 : ℕ) = some (buf, m') ∧ ∃ fs b, (links s.m).walk 64 (2 ^ 32) (flink s.m 64) = some fs ∧
      FirstLeast (waste s.m (blockFor 10)) fs b ∧ buf = b + carveAt (bsize s.m b).toNat (blockFor 10) + 8 := by
  obtain ⟨s, pools, hcall, h⟩ := (Inv.init image_image).call allowed_pool
  have hroom : HasRoom s (blockFor 10) := by
    rw [Sys.call] at hcall
    obtain ⟨m, -, rfl⟩ := Option.map_eq_some_iff.mp hcall
    refine ⟨(4096, 256), by simp, 4096, le_rfl, by decide, fun buf hlive => ?_⟩
    cases hlive
  have hpos : 0 < 10 := by norm_num
  rcases h.get_cases hpos (by norm_num) with ⟨-, hno⟩ | ⟨⟨buf, m', hget, hbuf⟩, -⟩
  · exact absurd hroom hno
  · exact ⟨s, buf, m', hcall, hget,
      bget_best_fit image_image (.call .start allowed_pool hcall) ⟨by norm_num, by norm_num⟩ hget hbuf⟩

end Shaunos.Mm.Bget
