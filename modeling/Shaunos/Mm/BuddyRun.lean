import Shaunos.Common.Run
import Shaunos.Mm.BuddyOps

/-!
# Runs of `alloc_pages` and `free_pages`

Reference: `Kernel/mm.c`.

A run starts in the state that `buddy_init` builds from the range `mem_init` hands to it, and makes
calls of `alloc_pages(ALLOC_NORMAL, order)` and `free_pages(order, addr)`, every free naming a block
that is live.

`buddy_init` puts only the first chunk of 1024 pages on the list of order 10. Whenever a chunk is
taken off that list, `expand` puts the pages behind it on as the next chunk. This is right for the
chunk that was put on last, as long as it lies in the range, and wrong for a chunk that `buddy_free`
has merged back: the pages behind that one are already in use. `Orderly` says that neither happens.

* `live_blocks_disjoint` — in orderly runs, live blocks overlap neither each other nor a free block;
* `allocation_in_range` — in orderly runs, what `alloc_pages` returns lies in the managed range;
* `live_blocks_can_overlap`, `allocation_can_leave_range` — other runs break both.
-/

namespace Shaunos.Mm

open Bitops

/-! ## Runs -/

/-- What `mem_init` hands to `buddy_init`. -/
structure Boot where
  /-- The state before `buddy_init`. -/
  mm : State
  totalMem : BitVec 32
  start : ℤ
  /-- The last managed page, included. -/
  stop : ℤ
  start_nonneg : 0 ≤ start
  start_le : start ≤ stop
  /-- Only 1 GiB of memory is supported. -/
  stop_le : stop ≤ 0x3FF00
  /-- The pages before the range hold the kernel, and no `PAGE_BUDDY` is set there. -/
  kernel : ∀ i, start - 2 ^ 9 ≤ i → i < start → pageInBuddy mm i = false

/-- A block as its owner knows it. -/
structure Alloc where
  addr : BitVec 32
  order : ℕ
  deriving DecidableEq

/-- The pages an owner may use. -/
def Alloc.block (a : Alloc) : Block := ⟨virtToPage a.addr, a.order⟩

/-- The allocator and its clients. -/
structure Sys where
  mm : State
  /-- The blocks handed out and not freed. -/
  live : List Alloc
  /-- How many requests were served from the list of order 10. No code reads this. -/
  chunks : ℕ

/-- The calls that clients make. -/
inductive Call where
  | alloc (order : ℤ)
  | free (a : Alloc)

/-- A request that `alloc_pages` lets through and `buddy_alloc` serves from the list of order 10. -/
def fromTop (s : State) (order : ℤ) : Bool :=
  0 ≤ order && order ≤ 11 && servingOrder s order.toNat == some 10

/-- One call. A free of a block that is not live is not made, and a call that ends in `BUG()` does
not return. -/
def Sys.call (σ : Sys) : Call → Option Sys
  | .alloc order => do
      let (addr, mm) ← allocPages σ.mm allocNormal order
      return {
        mm
        live := if addr = 0 then σ.live else ⟨addr, order.toNat⟩ :: σ.live
        chunks := if fromTop σ.mm order then σ.chunks + 1 else σ.chunks }
  | .free a =>
      if a ∈ σ.live then do
        let mm ← freePages σ.mm a.order a.addr
        return { σ with mm, live := σ.live.erase a }
      else none

/-- The state that `buddy_init` builds. -/
def Boot.sys (b : Boot) : Sys := ⟨buddyInit b.mm b.totalMem b.start b.stop, [], 0⟩

/-- The chunk that was put on the list of order 10 last. -/
def Boot.frontier (b : Boot) (chunks : ℕ) : ℤ := b.start + 2 ^ 10 * chunks

/-- A request served from the list of order 10 takes the chunk that was put there last, and that
chunk lies in the managed range. -/
def Orderly (b : Boot) (σ : Sys) : Call → Prop
  | .alloc order => fromTop σ.mm order = true →
      σ.mm.list.next (.head 10) = .page (b.frontier σ.chunks) ∧
        b.frontier (σ.chunks + 1) ≤ b.stop + 1
  | .free _ => True

instance (b : Boot) (σ : Sys) : ∀ c, Decidable (Orderly b σ c)
  | .alloc _ => inferInstanceAs (Decidable (_ → _ ∧ _))
  | .free _ => isTrue trivial

/-- Live blocks overlap neither each other nor a block on a free list. -/
def NoOverlap (σ : Sys) : Prop :=
  σ.live.Pairwise (fun a a' => Disjoint a.block.pages a'.block.pages) ∧
    ∀ a ∈ σ.live, ∀ k < 11, ∀ i, σ.mm.list.OnRing (.head k) (.page i) →
      Disjoint a.block.pages (Block.mk i k).pages

/-- Some block of this order lies in the managed range and overlaps no live block. -/
def Available (b : Boot) (σ : Sys) (order : ℕ) : Prop :=
  ∃ p, (Block.mk p order).pages ⊆ Set.Icc b.start b.stop ∧
    ∀ a ∈ σ.live, Disjoint (Block.mk p order).pages a.block.pages

/-! ## What the invariant does not look at -/

/-- The counts of the pages may differ. -/
structure SameLists (s t : State) : Prop where
  list : t.list = s.list
  freeNum : t.freeNum = s.freeNum
  base : t.buddyMapBase = s.buddyMapBase
  flag : ∀ i, (t.page i).flag = (s.page i).flag
  priv : ∀ i, (t.page i).priv = (s.page i).priv

theorem SameLists.refl (s : State) : SameLists s s := ⟨rfl, rfl, rfl, fun _ => rfl, fun _ => rfl⟩

theorem SameLists.trans {s t u : State} (h : SameLists s t) (h' : SameLists t u) : SameLists s u :=
  ⟨h'.list.trans h.list, h'.freeNum.trans h.freeNum, h'.base.trans h.base,
    fun i => (h'.flag i).trans (h.flag i), fun i => (h'.priv i).trans (h.priv i)⟩

/-- Changing counts keeps the invariant. -/
theorem RepInv.congr {n : ℕ} {start : ℤ} {s t : State} {live : List Block} {L : ℕ → List ℤ}
    (h : RepInv n start s live L) (hst : SameLists s t) : RepInv n start t live L := by
  have hmarked : ∀ i k, Marked t i k ↔ Marked s i k := fun i k => by
    rw [Marked, Marked, pageInBuddy, pageInBuddy, hst.flag, hst.priv]
  refine { h with
    toLayout := hst.list ▸ h.toLayout
    marked := fun i hlo hi k hk => ?_
    freeNum := hst.freeNum ▸ h.freeNum
    freeRange := hst.base ▸ h.freeRange
    liveRange := hst.base ▸ h.liveRange
    size := hst.base ▸ h.size }
  rw [hmarked]
  exact h.marked i hlo (hst.base ▸ hi) k hk

/-- A pass over the counts of some pages. -/
theorem sameLists_modifyRange (s : State) (p : ℤ) (n : ℕ) (f : BitVec 32 → BitVec 32) :
    SameLists s (s.modifyRange p n fun pg => { pg with count := f pg.count }) := by
  refine ⟨rfl, rfl, rfl, fun i => ?_, fun i => ?_⟩ <;>
    · simp only [State.modifyRange]
      split <;> rfl

theorem sameLists_freePageLowmem (s : State) (addr : BitVec 32) :
    SameLists s (freePageLowmem s addr) := by
  rw [freePageLowmem]
  split
  · exact .refl s
  · split
    · exact .refl s
    · simp only
      split
      · exact .refl s
      · refine ⟨rfl, rfl, rfl, fun i => ?_, fun i => ?_⟩ <;>
          · simp only [State.modify, Function.update_apply]
            split <;> simp_all

/-- Freeing low memory changes counts only. -/
theorem sameLists_freePagesLowmem (s : State) (nr : ℕ) (addr : BitVec 32) :
    SameLists s (freePagesLowmem s nr addr) := by
  rw [freePagesLowmem]
  induction List.range nr generalizing s addr with
  | nil => exact .refl s
  | cons _ _ ih =>
      exact (sameLists_freePageLowmem s addr).trans (ih (freePageLowmem s addr) (addr + 4096#32))

/-- A page of the supported memory is found again from its address. -/
theorem virtToPage_pageToVirt {p : ℤ} (h₁ : 0 ≤ p) (h₂ : p < 2 ^ 20) :
    virtToPage (pageToVirt p) = p := by
  lift p to ℕ using h₁
  have hp : p < 2 ^ 20 := by exact_mod_cast h₂
  rw [virtToPage, pageToVirt, BitVec.add_sub_cancel, pageShift, BitVec.ofInt_natCast]
  simp only [BitVec.toNat_ushiftRight, BitVec.toNat_shiftLeft, BitVec.toNat_ofNat,
    Nat.shiftLeft_eq, Nat.shiftRight_eq_div_pow]
  have heq : p % 2 ^ 32 * 2 ^ 12 % 2 ^ 32 / 2 ^ 12 = p := by omega
  rw [heq]

/-! ## The invariant of orderly runs -/

/-- The free lists with the chunk at `F` on the list of order 10 and nothing behind it. -/
structure Frontier (n : ℕ) (start : ℤ) (s : State) (live : List Block) (L : ℕ → List ℤ) (F : ℤ) :
    Prop extends RepInv n start s live L where
  top : F ∈ L 10
  freeBelow : ∀ x ∈ freeSet L 11, x < F + 2 ^ 10
  liveBelow : ∀ b ∈ live, b.page + 2 ^ b.order ≤ F

namespace Frontier

variable {start F : ℤ} {s : State} {live : List Block} {L : ℕ → List ℤ}

/-- No free block reaches behind the last chunk. -/
theorem block_le (h : Frontier 11 start s live L F) {i : ℤ} {k : ℕ} (hk : k < 11) (hi : i ∈ L k) :
    i + 2 ^ k ≤ F + 2 ^ 10 := by
  have hpos : (0 : ℤ) < 2 ^ k := by positivity
  have hlast : i + 2 ^ k - 1 ∈ (Block.mk i k).pages := ⟨by simp only; omega, by simp only; omega⟩
  have := h.freeBelow _ ⟨k, hk, i, hi, hlast⟩
  omega

/-- The free pages of order below 10 lie before the last chunk. -/
theorem lt_of_mem_freeSet (h : Frontier 11 start s live L F) {x : ℤ} (hx : x ∈ freeSet L 10) :
    x < F := by
  obtain ⟨k, hk, i, hi, hxi⟩ := hx
  have hdisj := h.freeDisjoint k (by omega) 10 (by omega) i hi F h.top
    (by simp only [ne_eq, Prod.mk.injEq]; omega)
  have hend := h.block_le (by omega) hi
  have hpos : (0 : ℤ) < 2 ^ k := by positivity
  rw [Block.disjoint_iff] at hdisj
  simp only [Block.pages, Set.mem_Ico] at hxi hdisj
  omega

/-- Live blocks may be forgotten. -/
theorem forget (h : Frontier 11 start s live L F) {live' : List Block} (hsub : live'.Sublist live) :
    Frontier 11 start s live' L F := by
  refine ⟨h.relive (fun b hb x hx => ⟨b, hsub.subset hb, hx⟩) (h.livePairwise.sublist hsub)
    (fun b hb => h.liveRange b (hsub.subset hb)), h.top, h.freeBelow, ?_⟩
  exact fun b hb => h.liveBelow b (hsub.subset hb)

theorem congr (h : Frontier 11 start s live L F) {t : State} (hst : SameLists s t) :
    Frontier 11 start t live L F :=
  ⟨h.toRepInv.congr hst, h.top, h.freeBelow, h.liveBelow⟩

/-- `buddy_alloc` served from a list of order below 10. -/
theorem buddyAlloc (h : Frontier 11 start s live L F) {order c : ℕ}
    (hserve : servingOrder s order = some c) (hc : c < 10) :
    ∃ p s' L', Mm.buddyAlloc s order = some (some p, s') ∧
      s'.buddyMapBase = s.buddyMapBase ∧ Frontier 11 start s' (⟨p, order⟩ :: live) L' F := by
  obtain ⟨p, s', L', halloc, hrep, hbase, htop, hset, -⟩ := h.toRepInv.buddyAlloc hserve hc
  refine ⟨p, s', L', halloc, hbase, hrep, htop ▸ h.top, fun x hx => h.freeBelow x ?_, ?_⟩
  · rw [freeSet_eleven, htop] at hx
    rw [freeSet_eleven, hset]
    exact hx.imp_left Or.inl
  · intro b hb
    rcases List.mem_cons.mp hb with rfl | hb
    · have hpos : (0 : ℤ) < 2 ^ order := by positivity
      have hlast : p + 2 ^ order - 1 ∈ (Block.mk p order).pages :=
        ⟨by simp only; omega, by simp only; omega⟩
      have := h.lt_of_mem_freeSet (hset.ge (Or.inr hlast))
      simp only
      omega
    · exact h.liveBelow b hb

/-- `buddy_alloc` served with the last chunk, which lies in the range: the next chunk takes its
place. -/
theorem buddyAlloc_top (h : Frontier 11 start s live L F) {order : ℕ}
    (hserve : servingOrder s order = some 10) (hnext : s.list.next (.head 10) = .page F)
    (hstart : start ≤ F) (hF : F + 2 ^ 10 ≤ s.buddyMapBase) :
    ∃ s' L', Mm.buddyAlloc s order = some (some F, s') ∧
      s'.buddyMapBase = s.buddyMapBase ∧
      Frontier 11 start s' (⟨F, order⟩ :: live) L' (F + 2 ^ 10) := by
  obtain ⟨ho, -, -⟩ := servingOrder_eq_some hserve
  have htake := h.take (by omega) (by omega) h.top ⟨hstart, hF⟩
  set L₁ := setList L 10 ((L 10).erase F) with hL₁
  have hmem : ∀ k, ∀ i ∈ L₁ k, i ∈ L k := by
    intro k i hi
    by_cases hk : k = 10
    · subst hk
      rw [hL₁, setList_self] at hi
      exact List.mem_of_mem_erase hi
    · rwa [hL₁, setList_ne L hk] at hi
  have hnew := htake.introduce (p := F + 2 ^ 10)
    (fun k hk i hi => (Block.disjoint_iff _ _).mpr (Or.inr (h.block_le hk (hmem k i hi))))
    (by
      intro b hb
      rw [Block.disjoint_iff]
      rcases List.mem_cons.mp hb with rfl | hb
      · exact Or.inr le_rfl
      · have := h.liveBelow b hb
        exact Or.inr (by simp only; omega))
  obtain ⟨hbase, L', hrep, htop, hset, -⟩ := expandLoop_spec hnew le_rfl ho
  have hfree : ∀ x ∈ freeSet L' 11, x < F + 2 ^ 10 + 2 ^ 10 := by
    intro x hx
    rw [freeSet_eleven, htop, setList_self] at hx
    rcases hx with hx | ⟨i, hi, hx⟩
    · rcases hset.ge (Or.inl hx) with ⟨k, hk, i, hi, hxi⟩ | hxF
      · rw [setList_ne _ (by omega)] at hi
        have := h.freeBelow x ⟨k, by omega, i, hmem k i hi, hxi⟩
        omega
      · have := hxF.2
        simp only at this
        omega
    · rcases List.mem_cons.mp hi with rfl | hi
      · exact hx.2
      · have := h.freeBelow x ⟨10, by omega, i, hmem 10 i hi, hx⟩
        omega
  refine ⟨_, L', ?_, hbase, hrep, ?_, hfree, ?_⟩
  · simp only [Mm.buddyAlloc, hserve, hnext, containerOf, expand, buddyChunkNum,
      Nat.one_shiftLeft]
    rfl
  · rw [htop, setList_self]
    exact List.mem_cons_self
  · intro b hb
    have hpow : (2 : ℤ) ^ order ≤ 2 ^ 10 := pow_le_pow_right₀ (by norm_num) ho
    rcases List.mem_cons.mp hb with rfl | hb
    · simp only
      omega
    · have := h.liveBelow b hb
      omega

/-- `buddy_free` of a live block. -/
theorem buddyFree {p : ℤ} {k : ℕ} (h : Frontier 11 start s (⟨p, k⟩ :: live) L F) (hk : k ≤ 10) :
    ∃ L', Frontier 11 start (Mm.buddyFree s p k) live L' F ∧
      (Mm.buddyFree s p k).buddyMapBase = s.buddyMapBase := by
  obtain ⟨L', hrep, hbase, htop, hset, -⟩ := h.toRepInv.buddyFree hk
  refine ⟨L', ⟨hrep, ?_, fun x hx => ?_, fun b hb => h.liveBelow b (by simp [hb])⟩, hbase⟩
  · rcases htop with htop | ⟨c, htop⟩
    · exact htop ▸ h.top
    · exact htop ▸ List.mem_cons_of_mem _ h.top
  · rw [hset] at hx
    rcases hx with hx | hx
    · exact h.freeBelow x hx
    · have := h.liveBelow ⟨p, k⟩ List.mem_cons_self
      have := hx.2
      simp only at *
      omega

end Frontier

/-- The invariant of orderly runs. -/
structure SysInv (b : Boot) (σ : Sys) : Prop where
  lists : ∃ L, Frontier 11 b.start σ.mm (σ.live.map Alloc.block) L (b.frontier σ.chunks)
  base : σ.mm.buddyMapBase = b.stop + 1
  order : ∀ a ∈ σ.live, a.order ≤ 10

/-- `buddy_init` empties all lists and then puts the first page on the list of order 10. -/
theorem buddyInit_list (s : State) (totalMem : BitVec 32) (start stop : ℤ) :
    ∃ l : Links Node,
      (buddyInit s totalMem start stop).list = l.insertAfter (.head 10) (.page start) ∧
        ∀ k < 11, l.IsRing (.head k) [] := by
  refine ⟨_, rfl, fun k hk => Links.IsRing.of_selfLoop ?_ ?_⟩ <;> simp [buddyChunkNum, hk]

/-- The state that `buddy_init` builds meets the invariant. -/
theorem Boot.sysInv (b : Boot) : SysInv b b.sys := by
  have hle := b.start_le
  have hbase : b.sys.mm.buddyMapBase = b.stop + 1 := max_eq_right (by omega)
  have hfrontier : b.frontier b.sys.chunks = b.start := by simp [frontier, sys]
  have hpage : ∀ i, b.start ≤ i → i ≤ b.stop → (b.sys.mm.page i).priv = 10#32 := by
    intro i h₁ h₂
    simp [sys, buddyInit, State.modifyFreeNum, listAdd, h₁, h₂, buddyChunkNum]
  have hkernel : ∀ i, i < b.start → b.sys.mm.page i = b.mm.page i := by
    intro i h₁
    simp [sys, buddyInit, State.modifyFreeNum, listAdd, not_le.mpr h₁]
  have hnum : ∀ k < 10, b.sys.mm.freeNum k = 0 := by
    intro k hk
    simp [sys, buddyInit, State.modifyFreeNum, listAdd, buddyChunkNum, hk.ne,
      show k < 11 by omega]
  refine ⟨⟨fun k => if k = 10 then [b.start] else [], ⟨⟨⟨Or.inr rfl, ?ring, ?free, by simp [sys],
    by simp [sys], ?topFree, by simp [sys]⟩, ?marked, ?num, ?freeRange, by simp [sys], ?size⟩,
    ?top, ?below, by simp [sys]⟩⟩, hbase, by simp [sys]⟩
  case ring =>
    intro k hk
    obtain ⟨l, hlist, hempty⟩ := buddyInit_list b.mm b.totalMem b.start b.stop
    have hlist : b.sys.mm.list = l.insertAfter (.head 10) (.page b.start) := hlist
    rw [hlist]
    by_cases hk10 : k = 10
    · subst hk10
      simpa using (hempty 10 (by omega)).insertAfter (e := .page b.start) (by simp)
    · simpa [hk10] using (hempty 10 (by omega)).insertAfter_frame (e := .page b.start) (hempty k hk)
        (by simpa using Ne.symm hk10) (by simp)
  case free =>
    intro j _ k _ i hi i' hi' hne
    simp only [List.mem_ite_nil_right, List.mem_singleton] at hi hi'
    simp [hi, hi'] at hne
  case topFree =>
    intro k hk i hi
    simp [hk.ne] at hi
  case marked =>
    intro i hlo hi k hk
    simp only [hk.ne, if_false, List.not_mem_nil, iff_false]
    rintro ⟨hbuddy, hpriv⟩
    by_cases his : i < b.start
    · rw [pageInBuddy, hkernel i his] at hbuddy
      exact Bool.false_ne_true ((b.kernel i hlo his).symm.trans hbuddy)
    · rw [hpage i (by omega) (by omega)] at hpriv
      exact absurd ((ofNat_order_inj (by omega) (by omega)).mp hpriv) (by omega)
  case num =>
    intro k hk
    simp [hnum k hk, hk.ne]
  case freeRange =>
    intro k hk i hi
    simp [hk.ne] at hi
  case size =>
    have := b.start_nonneg
    have := b.stop_le
    omega
  case top => simp [hfrontier]
  case below =>
    rintro x ⟨k, hk, i, hi, hx⟩
    simp only [List.mem_ite_nil_right, List.mem_singleton] at hi
    obtain ⟨rfl, rfl⟩ := hi
    exact hfrontier ▸ hx.2

/-! ## Steps -/

/-- `alloc_pages(ALLOC_NORMAL, order)` refuses an order outside `0, …, 11` and asks the buddy core
otherwise. -/
theorem allocPages_normal (s : State) (order : ℤ) :
    allocPages s allocNormal order =
      if 0 ≤ order ∧ order ≤ 11 then allocPagesBuddy s order.toNat else some (0, s) := by
  have h₁ : ¬ allocNormal.toInt ≤ 0 := by decide
  have h₂ : ¬ allocNormal &&& allocLowmem ≠ 0 := by decide
  have h₃ : allocNormal &&& allocNormal ≠ 0 := by decide
  rw [allocPages, if_neg h₂, if_pos h₃]
  by_cases ho : 0 ≤ order ∧ order ≤ 11
  · rw [if_pos ho, if_neg (by omega)]
  · rw [if_neg ho, if_pos (by omega)]

theorem fromTop_iff {s : State} {order : ℤ} (ho : 0 ≤ order ∧ order ≤ 11) :
    fromTop s order = true ↔ servingOrder s order.toNat = some 10 := by
  simp [fromTop, ho]

/-- The part of an allocation after `buddy_alloc` has found a block: the counts go up and the owner
learns the address. -/
theorem SysInv.handOut {b : Boot} {live : List Alloc} {mm : State} {L : ℕ → List ℤ} {p : ℤ}
    {order chunks : ℕ} (ho : order ≤ 10)
    (hL : Frontier 11 b.start mm (⟨p, order⟩ :: live.map Alloc.block) L (b.frontier chunks))
    (hbase : mm.buddyMapBase = b.stop + 1) (horder : ∀ a ∈ live, a.order ≤ 10) :
    SysInv b ⟨mm.modifyRange p (1 <<< order) fun pg => { pg with count := pg.count + 1 },
      if pageToVirt p = 0 then live else ⟨pageToVirt p, order⟩ :: live, chunks⟩ := by
  have hst := sameLists_modifyRange mm p (1 <<< order) (· + 1)
  have hrange := hL.liveRange ⟨p, order⟩ List.mem_cons_self
  have hpos : (0 : ℤ) < 2 ^ order := by positivity
  have := b.start_nonneg
  have := b.stop_le
  simp only [hbase] at hrange
  have hblock : Alloc.block ⟨pageToVirt p, order⟩ = ⟨p, order⟩ := by
    rw [Alloc.block, virtToPage_pageToVirt (by omega) (by omega)]
  split
  · exact ⟨⟨L, (hL.forget (List.sublist_cons_self _ _)).congr hst⟩, hbase, horder⟩
  · refine ⟨⟨L, ?_⟩, hbase, ?_⟩
    · rw [List.map_cons, hblock]
      exact hL.congr hst
    · simpa using ⟨ho, horder⟩

/-- An orderly allocation returns and keeps the invariant. -/
theorem SysInv.alloc {b : Boot} {σ : Sys} {order : ℤ} (h : SysInv b σ)
    (hok : Orderly b σ (.alloc order)) :
    ∃ addr mm, allocPages σ.mm allocNormal order = some (addr, mm) ∧
      SysInv b ⟨mm, if addr = 0 then σ.live else ⟨addr, order.toNat⟩ :: σ.live,
        if fromTop σ.mm order then σ.chunks + 1 else σ.chunks⟩ := by
  rw [allocPages_normal]
  split
  · rename_i ho
    obtain ⟨L, hL⟩ := h.lists
    cases hserve : servingOrder σ.mm order.toNat with
    | none =>
        have htop : ¬ fromTop σ.mm order = true := by rw [fromTop_iff ho, hserve]; simp
        refine ⟨0, σ.mm, by simp [allocPagesBuddy, buddyAlloc, hserve], ?_⟩
        rw [if_pos rfl, if_neg htop]
        exact h
    | some c =>
        obtain ⟨hc₁, hc₂, -⟩ := servingOrder_eq_some hserve
        by_cases hc : c = 10
        · -- the last chunk is taken and the next one takes its place
          subst hc
          have htop : fromTop σ.mm order = true := (fromTop_iff ho).mpr hserve
          obtain ⟨hnext, hfit⟩ := hok htop
          have hstep : b.frontier (σ.chunks + 1) = b.frontier σ.chunks + 2 ^ 10 := by
            simp only [Boot.frontier]; push_cast; ring
          obtain ⟨s', L', halloc, hbase, hL'⟩ := hL.buddyAlloc_top hserve hnext
            (by simp only [Boot.frontier]; omega) (by rw [h.base, ← hstep]; exact hfit)
          refine ⟨_, _, by simp only [allocPagesBuddy, halloc]; rfl, ?_⟩
          rw [if_pos htop]
          rw [← hstep] at hL'
          exact SysInv.handOut hc₁ hL' (hbase.trans h.base) h.order
        · have htop : ¬ fromTop σ.mm order = true := by
            rw [fromTop_iff ho, hserve]
            simpa using hc
          obtain ⟨p, s', L', halloc, hbase, hL'⟩ := hL.buddyAlloc hserve (by omega)
          refine ⟨_, _, by simp only [allocPagesBuddy, halloc]; rfl, ?_⟩
          rw [if_neg htop]
          exact SysInv.handOut (by omega) hL' (hbase.trans h.base) h.order
  · rename_i ho
    have htop : ¬ fromTop σ.mm order = true := by
      simp only [fromTop, Bool.and_eq_true, decide_eq_true_eq]
      tauto
    refine ⟨0, σ.mm, rfl, ?_⟩
    rw [if_pos rfl, if_neg htop]
    exact h

/-- The invariant bears a change of counts, and forgetting live blocks. -/
theorem SysInv.congr {b : Boot} {σ : Sys} {mm : State} {live : List Alloc} (h : SysInv b σ)
    (hst : SameLists σ.mm mm) (hsub : live.Sublist σ.live) : SysInv b ⟨mm, live, σ.chunks⟩ := by
  obtain ⟨L, hL⟩ := h.lists
  exact ⟨⟨L, (hL.forget (hsub.map _)).congr hst⟩, hst.base.trans h.base,
    fun a ha => h.order a (hsub.subset ha)⟩

/-- A free of a live block keeps the invariant. -/
theorem SysInv.free {b : Boot} {σ : Sys} {a : Alloc} {mm : State} (h : SysInv b σ)
    (ha : a ∈ σ.live) (hfree : freePages σ.mm a.order a.addr = some mm) :
    SysInv b ⟨mm, σ.live.erase a, σ.chunks⟩ := by
  obtain ⟨L, hL⟩ := h.lists
  have horder : ∀ a' ∈ σ.live.erase a, a'.order ≤ 10 :=
    fun a' ha' => h.order a' (List.mem_of_mem_erase ha')
  -- every path that does not reach `buddy_free` changes counts at most
  have hcounts : SameLists σ.mm mm → SysInv b ⟨mm, σ.live.erase a, σ.chunks⟩ := fun hst =>
    h.congr hst List.erase_sublist
  rw [freePages] at hfree
  split at hfree
  · obtain rfl := Option.some.inj hfree
    exact hcounts (sameLists_freePagesLowmem _ _ _)
  · rw [freePagesBuddy] at hfree
    simp only at hfree
    split at hfree
    · obtain rfl := Option.some.inj hfree
      exact hcounts (.refl _)
    · split at hfree
      · obtain rfl := Option.some.inj hfree
        exact hcounts (.refl _)
      · split at hfree
        · obtain rfl := Option.some.inj hfree
          have hperm : (σ.live.map Alloc.block).Perm
              (a.block :: (σ.live.erase a).map Alloc.block) :=
            (List.perm_cons_erase ha).map Alloc.block
          have hst := sameLists_modifyRange σ.mm (virtToPage a.addr) (1 <<< a.order) (· - 1)
          have hL' : Frontier 11 b.start _ (a.block :: (σ.live.erase a).map Alloc.block) L _ :=
            ⟨(hL.perm hperm).congr hst, hL.top, hL.freeBelow,
              fun b' hb' => hL.liveBelow b' (hperm.mem_iff.mpr hb')⟩
          obtain ⟨L', hL'', hbase⟩ := hL'.buddyFree (h.order a ha)
          exact ⟨⟨L', hL''⟩, hbase.trans h.base, horder⟩
        · exact absurd hfree (by simp)

/-- One orderly call keeps the invariant. -/
theorem SysInv.call {b : Boot} {σ τ : Sys} {c : Call} (h : SysInv b σ) (hok : Orderly b σ c)
    (hcall : σ.call c = some τ) : SysInv b τ := by
  cases c with
  | alloc order =>
      obtain ⟨addr, mm, halloc, hinv⟩ := h.alloc hok
      simp only [Sys.call, halloc] at hcall
      obtain rfl := Option.some.inj hcall
      exact hinv
  | free a =>
      simp only [Sys.call] at hcall
      split at hcall
      · rename_i ha
        obtain ⟨mm, hfree, hmm⟩ := Option.bind_eq_some_iff.mp hcall
        obtain rfl := Option.some.inj hmm
        exact h.free ha hfree
      · exact absurd hcall (by simp)

/-- The invariant holds in every state that an orderly run reaches. -/
theorem sysInv_of_reach {b : Boot} {σ : Sys} (h : Reach Sys.call (Orderly b) b.sys σ) :
    SysInv b σ :=
  h.invariant b.sysInv fun _ _ _ hinv hok hcall => hinv.call hok hcall

/-- The invariant keeps blocks apart. -/
theorem SysInv.noOverlap {b : Boot} {σ : Sys} (h : SysInv b σ) : NoOverlap σ := by
  obtain ⟨L, hL⟩ := h.lists
  have hpair : (σ.live.map Alloc.block).Pairwise fun x y => Disjoint x.pages y.pages :=
    hL.livePairwise
  refine ⟨(List.pairwise_map (f := Alloc.block)).mp hpair, fun a ha k hk i hi => ?_⟩
  exact hL.liveDisjoint a.block (List.mem_map_of_mem ha) k hk i ((hL.onRing_iff hk).mp hi)

/-- Live blocks lie in the managed range. -/
theorem SysInv.live_in_range {b : Boot} {σ : Sys} {a : Alloc} (h : SysInv b σ) (ha : a ∈ σ.live) :
    a.block.pages ⊆ Set.Icc b.start b.stop := by
  obtain ⟨L, hL⟩ := h.lists
  have hblock := hL.liveRange a.block (List.mem_map_of_mem ha)
  simp only [h.base] at hblock
  rintro x ⟨hx₁, hx₂⟩
  exact ⟨by omega, by omega⟩

/-! ## Main results -/

/-- **Live blocks stay apart in orderly runs.** They overlap neither each other nor any block on a
free list. -/
theorem live_blocks_disjoint {b : Boot} {σ : Sys} (h : Reach Sys.call (Orderly b) b.sys σ) :
    NoOverlap σ :=
  (sysInv_of_reach h).noOverlap

/-- Pages `1024, …` of an empty memory, as many chunks as asked for. -/
def bootChunks (n : ℕ) (h₁ : 0 < n) (h₂ : n < 254) : Boot where
  mm := emptyState
  totalMem := BitVec.ofNat 32 (4096 * n)
  start := 1024
  stop := 1024 * (n + 1) - 1
  start_nonneg := by norm_num
  start_le := by omega
  stop_le := by omega
  kernel := fun i _ _ => by simp [pageInBuddy, emptyState, getBit]

/-- A chunk and a page are taken and the page is given back. -/
theorem live_blocks_disjoint_three :
    ∃ σ, runCalls Sys.call (bootChunks 3 (by decide) (by decide)).sys
        [.alloc 10, .alloc 0, .free ⟨0xC0900000#32, 0⟩] = some σ ∧
      σ.live = [⟨0xC0500000#32, 10⟩] ∧ NoOverlap σ := by
  have hsome : (runCalls Sys.call (bootChunks 3 (by decide) (by decide)).sys
      [.alloc 10, .alloc 0, .free ⟨0xC0900000#32, 0⟩]).isSome = true := by decide +kernel
  obtain ⟨σ, hσ⟩ := Option.isSome_iff_exists.mp hsome
  have hlive : (runCalls Sys.call (bootChunks 3 (by decide) (by decide)).sys
      [.alloc 10, .alloc 0, .free ⟨0xC0900000#32, 0⟩]).map Sys.live
        = some [⟨0xC0500000#32, 10⟩] := by decide +kernel
  rw [hσ] at hlive
  exact ⟨σ, hσ, Option.some.inj hlive,
    live_blocks_disjoint (Reach.start.of_runCalls _ (by decide +kernel) hσ)⟩

/-- Two chunks are taken, the first is given back and taken again: `expand` then puts the second
one, which is live, on the list of order 10. -/
theorem live_blocks_can_overlap :
    ¬ ∀ (b : Boot) (σ : Sys), Reach Sys.call (fun _ _ => True) b.sys σ → NoOverlap σ := by
  intro hall
  set calls : List Call := [.alloc 10, .alloc 10, .free ⟨0xC0500000#32, 10⟩, .alloc 10] with hcalls
  set b := bootChunks 3 (by decide) (by decide) with hb
  have hrun : (runCalls Sys.call b.sys calls).map
      (fun σ => (σ.live, σ.mm.list.next (.head 10)))
        = some ([⟨0xC0500000#32, 10⟩, ⟨0xC0900000#32, 10⟩], .page 2048) := by
    decide +kernel
  obtain ⟨σ, hσ, hst⟩ := Option.map_eq_some_iff.mp hrun
  obtain ⟨hlive, hnext⟩ := Prod.mk.inj hst
  have hover := hall b σ (Reach.start.of_runCalls calls (.of_forall (fun _ _ => trivial) _ _) hσ)
  have hring : σ.mm.list.OnRing (.head 10) (.page 2048) := by
    refine ⟨0, hnext, fun j hj => ?_⟩
    obtain rfl : j = 0 := by omega
    simp [hnext]
  have hdisj := hover.2 ⟨0xC0900000#32, 10⟩ (by simp [hlive]) 10 (by decide) 2048 hring
  exact absurd ((Block.disjoint_iff _ _).mp hdisj) (by decide)

/-- **Allocations stay in the range in orderly runs.** A block that `alloc_pages` returns lies in the
managed range, and where no block of that order is left there, it returns 0. -/
theorem allocation_in_range {b : Boot} {σ : Sys} {order : ℤ}
    (h : Reach Sys.call (Orderly b) b.sys σ) (hok : Orderly b σ (.alloc order)) :
    ∃ addr mm, allocPages σ.mm allocNormal order = some (addr, mm) ∧
      (addr ≠ 0 → (Alloc.block ⟨addr, order.toNat⟩).pages ⊆ Set.Icc b.start b.stop) ∧
      (¬ Available b σ order.toNat → addr = 0) := by
  obtain ⟨addr, mm, halloc, hinv⟩ := (sysInv_of_reach h).alloc hok
  have hrange (haddr : addr ≠ 0) : (Alloc.block ⟨addr, order.toNat⟩).pages ⊆ Set.Icc b.start b.stop :=
    hinv.live_in_range (by rw [if_neg haddr]; exact List.mem_cons_self)
  refine ⟨addr, mm, halloc, hrange, fun hnone => ?_⟩
  by_contra haddr
  have hover := hinv.noOverlap.1
  simp only [if_neg haddr] at hover
  exact hnone ⟨_, hrange haddr, fun a ha => List.rel_of_pairwise_cons hover ha⟩

/-- The first request of a run. -/
theorem allocation_in_range_first :
    ∃ addr mm, allocPages (bootChunks 1 (by decide) (by decide)).sys.mm allocNormal 3
        = some (addr, mm) ∧
      (addr ≠ 0 → (Alloc.block ⟨addr, 3⟩).pages ⊆ Set.Icc 1024 2047) ∧
      (¬ Available (bootChunks 1 (by decide) (by decide))
        (bootChunks 1 (by decide) (by decide)).sys 3 → addr = 0) :=
  @allocation_in_range (bootChunks 1 (by decide) (by decide)) _ 3 .start (by decide +kernel)

/-- The range is one chunk: the second request is served with the pages behind it. -/
theorem allocation_can_leave_range :
    ¬ ∀ (b : Boot) (σ : Sys), Reach Sys.call (fun _ _ => True) b.sys σ →
      ∀ order addr mm, allocPages σ.mm allocNormal order = some (addr, mm) → addr ≠ 0 →
        (Alloc.block ⟨addr, order.toNat⟩).pages ⊆ Set.Icc b.start b.stop := by
  intro hall
  set b := bootChunks 1 (by decide) (by decide) with hb
  have hrun : ((runCalls Sys.call b.sys [.alloc 10]).bind
      fun σ => (allocPages σ.mm allocNormal 10).map Prod.fst) = some 0xC0900000#32 := by
    decide +kernel
  obtain ⟨σ, hσ, halloc⟩ := Option.bind_eq_some_iff.mp hrun
  obtain ⟨⟨addr, mm⟩, halloc, rfl⟩ := Option.map_eq_some_iff.mp halloc
  have hsub := hall b σ (Reach.start.of_runCalls _ (.of_forall (fun _ _ => trivial) _ _) hσ)
    10 _ mm halloc (by decide)
  have hmem : (2048 : ℤ) ∈ (Alloc.block ⟨0xC0900000#32, (10 : ℤ).toNat⟩).pages :=
    ⟨by decide, by decide⟩
  exact absurd (hsub hmem).2 (by decide)

end Shaunos.Mm
