import Shaunos.Mm.FreeLists

/-!
# `buddy_free` and `buddy_alloc` on the free lists

`buddy_free` is a sequence of takes and joins followed by one give; `buddy_alloc` is one take
followed by a sequence of splits and gives. Each loop carries `RepInv` with the block it works on
counted as live, together with the set of free pages.

The buddy of a block is found by flipping one bit of its index, which is measured from the end of
the map and therefore negative. Blocks need not be aligned to anything: flipping bit `k` lands on
one of the two neighbouring blocks of order `k` wherever the block stands, and masking gives the
first page of the union.
-/

namespace Shaunos.Mm

open Bitops

/-! ## `buddy_free` -/

/-- The index that `buddy_free` computes reads back as the distance from `buddy_map_base`. -/
theorem toInt_pageIdx {p base : ℤ} (h₁ : -2 ^ 31 ≤ p - base) (h₂ : p - base < 2 ^ 31) :
    base + (BitVec.ofInt 32 (p - base)).toInt = p := by
  rw [BitVec.toInt_ofInt, Int.bmod_eq_of_le (by norm_num at *; omega) (by norm_num at *; omega)]
  omega

/-- The merges that the loop of `buddy_free` makes, in order: the page of the block so far, the page
of its buddy, and their order. -/
def buddyMerges : ℕ → State → BitVec 32 → ℕ → List (ℤ × ℤ × ℕ)
  | 0, _, _, _ => []
  | fuel + 1, s, pageIdx, order =>
      let buddy := s.buddyMapBase + (buddyIdx pageIdx order).toInt
      if order < buddyChunkNum - 1 ∧ pageIsBuddy s buddy order ∧ pageIsOk s buddy then
        (s.buddyMapBase + pageIdx.toInt, buddy, order) ::
          buddyMerges fuel (unlinkBlock s buddy order) (pageIdx &&& buddyIdx pageIdx order)
            (order + 1)
      else []

section Free

variable {n : ℕ} {start : ℤ} {live : List Block}

/-- A page that passes `page_is_buddy` heads a free block of that order. -/
theorem RepInv.mem_of_pageIsBuddy {s : State} {L : ℕ → List ℤ} {b : ℤ} {k : ℕ}
    (h : RepInv n start s live L) (hk : k < 10) (hlo : start - 2 ^ 9 ≤ b) (hb : b < s.buddyMapBase)
    (hbuddy : pageIsBuddy s b k = true) : b ∈ L k := by
  simp only [pageIsBuddy, Bool.and_eq_true, beq_iff_eq] at hbuddy
  exact (h.marked b hlo hb k hk).mp ⟨hbuddy.1.2, hbuddy.1.1⟩

/-- One merge: the buddy leaves its list and the two blocks become one of the next order. -/
theorem RepInv.merge {s : State} {L : ℕ → List ℤ} {idx : BitVec 32} {k : ℕ}
    (h : RepInv n start s (⟨s.buddyMapBase + idx.toInt, k⟩ :: live) L) (hk : k < 10)
    (hbuddy : pageIsBuddy s (s.buddyMapBase + (buddyIdx idx k).toInt) k = true) :
    let b := s.buddyMapBase + (buddyIdx idx k).toInt
    let c := s.buddyMapBase + (idx &&& buddyIdx idx k).toInt
    let L' := setList L k ((L k).erase b)
    b ∈ L k ∧
      (b = s.buddyMapBase + idx.toInt + 2 ^ k ∨ s.buddyMapBase + idx.toInt = b + 2 ^ k) ∧
      RepInv n start (unlinkBlock s b k) (⟨c, k + 1⟩ :: live) L' ∧
      freeSet L 10 ∪ (Block.mk (s.buddyMapBase + idx.toInt) k).pages
        = freeSet L' 10 ∪ (Block.mk c (k + 1)).pages := by
  intro b c L'
  have hpos : (0 : ℤ) < 2 ^ k := by positivity
  have hpow : (2 : ℤ) ^ k ≤ 2 ^ 9 := pow_le_pow_right₀ (by norm_num) (by omega)
  have hrange := h.liveRange _ List.mem_cons_self
  simp only at hrange
  have hneg : (buddyIdx idx k).toInt < 0 := BitVec.toInt_xor_bit_neg (by omega) (by omega)
  have hnear : idx.toInt - 2 ^ k ≤ (buddyIdx idx k).toInt := by
    rcases BitVec.toInt_xor_bit idx (k := k) (by omega) with ⟨hdist, -⟩ | ⟨hdist, -⟩
    · rw [buddyIdx, hdist]; omega
    · rw [buddyIdx, hdist]
  have hb : b ∈ L k := h.mem_of_pageIsBuddy hk (by omega) (by omega) hbuddy
  have htake := h.take_lt hk hb
  have hset := freeSet_take L (n := 10) hk hb
  -- flipping bit `k` reaches the upper or the lower neighbour
  rcases BitVec.toInt_xor_bit idx (k := k) (by omega) with ⟨hdist, hand⟩ | ⟨hdist, hand⟩
  · have hbc : b = c + 2 ^ k := by
      simp only [b, c, buddyIdx, hand, hdist]; ring
    have hc : s.buddyMapBase + idx.toInt = c := by simp only [c, buddyIdx, hand]
    rw [hc] at htake ⊢
    refine ⟨hb, Or.inl hbc, ?_, ?_⟩
    · have hupper : (⟨b, k⟩ :: ⟨c, k⟩ :: live : List Block) = ⟨c + 2 ^ k, k⟩ :: ⟨c, k⟩ :: live := by
        rw [hbc]
      exact (hupper ▸ htake).join
    · rw [hset, Block.pages_succ, ← hbc, Set.union_assoc, Set.union_comm (Block.mk b k).pages]
  · have hbc : b = c := by simp only [b, c, buddyIdx, hand]
    have hc : s.buddyMapBase + idx.toInt = c + 2 ^ k := by
      simp only [c, buddyIdx, hand, hdist]; ring
    rw [hc] at htake ⊢
    refine ⟨hb, Or.inr (by rw [hbc]), ?_, ?_⟩
    · have hlower : (⟨b, k⟩ :: ⟨c + 2 ^ k, k⟩ :: live : List Block)
          = ⟨c, k⟩ :: ⟨c + 2 ^ k, k⟩ :: live := by
        rw [hbc]
      exact ((hlower ▸ htake).perm (List.Perm.swap _ _ _)).join
    · rw [hset, Block.pages_succ, ← hbc, Set.union_assoc]

/-- The merge loop keeps the invariant and the pages of the free blocks together with those of the
block it works on. -/
theorem buddyFreeLoop_spec (fuel : ℕ) {s : State} {L : ℕ → List ℤ} {idx : BitVec 32} {k : ℕ}
    (h : RepInv n start s (⟨s.buddyMapBase + idx.toInt, k⟩ :: live) L) (hk : k ≤ 10) :
    let r := buddyFreeLoop fuel s idx k
    r.2.2 ≤ 10 ∧ r.1.buddyMapBase = s.buddyMapBase ∧
      ∃ L', RepInv n start r.1 (⟨s.buddyMapBase + r.2.1.toInt, r.2.2⟩ :: live) L' ∧
        L' 10 = L 10 ∧
        freeSet L 10 ∪ (Block.mk (s.buddyMapBase + idx.toInt) k).pages
          = freeSet L' 10 ∪ (Block.mk (s.buddyMapBase + r.2.1.toInt) r.2.2).pages ∧
        ∀ i ∉ freeSet L 10, r.1.page i = s.page i := by
  induction fuel generalizing s L idx k with
  | zero => exact ⟨hk, rfl, L, h, rfl, rfl, fun _ _ => rfl⟩
  | succ fuel ih =>
      simp only [buddyFreeLoop]
      split
      · split
        · exact ⟨hk, rfl, L, h, rfl, rfl, fun _ _ => rfl⟩
        · split
          · exact ⟨hk, rfl, L, h, rfl, rfl, fun _ _ => rfl⟩
          · rename_i hk' hbuddy _
            have hk10 : k < 10 := hk'
            obtain ⟨hb, -, hrep, hset⟩ := h.merge hk10 (by simpa using hbuddy)
            obtain ⟨h₁, h₂, L', h₃, h₄, h₅, h₆⟩ := ih hrep (by omega)
            refine ⟨h₁, h₂, L', h₃, ?_, hset.trans h₅, fun i hi => ?_⟩
            · rw [h₄, setList_ne L (by omega)]
            · -- the buddy's descriptor is that of a free page
              rw [freeSet_take L hk10 hb, Set.mem_union, not_or] at hi
              exact (h₆ i hi.1).trans
                (unlinkBlock_page s k fun hib => hi.2 (hib ▸ Block.page_mem ⟨_, k⟩))
      · exact ⟨hk, rfl, L, h, rfl, rfl, fun _ _ => rfl⟩

/-- Every merge joins the block so far with an adjacent free block of the same order. -/
theorem buddyMerges_spec (fuel : ℕ) {s : State} {L : ℕ → List ℤ} {idx : BitVec 32} {k : ℕ}
    (h : RepInv n start s (⟨s.buddyMapBase + idx.toInt, k⟩ :: live) L) :
    ∀ m ∈ buddyMerges fuel s idx k,
      k ≤ m.2.2 ∧ m.2.2 < 10 ∧ m.2.1 ∈ L m.2.2 ∧
        (m.2.1 = m.1 + 2 ^ m.2.2 ∨ m.1 = m.2.1 + 2 ^ m.2.2) := by
  induction fuel generalizing s L idx k with
  | zero => simp [buddyMerges]
  | succ fuel ih =>
      simp only [buddyMerges]
      split
      · rename_i hc
        have hk10 : k < 10 := hc.1
        obtain ⟨hb, hadj, hrep, -⟩ := h.merge hk10 hc.2.1
        intro m hm
        rcases List.mem_cons.mp hm with rfl | hm
        · exact ⟨le_rfl, hk10, hb, hadj⟩
        · obtain ⟨h₁, h₂, h₃, h₄⟩ := ih hrep m hm
          -- the lists of higher orders are not touched by this merge
          rw [setList_ne L (by omega)] at h₃
          exact ⟨by omega, h₂, h₃, h₄⟩
      · simp

/-- `buddy_free` gives the freed pages to the free lists and keeps the invariant. At most one block
is put on the list of order 10, in front, and the descriptors of other live pages are untouched. -/
theorem RepInv.buddyFree {s : State} {L : ℕ → List ℤ} {p : ℤ} {k : ℕ}
    (h : RepInv n start s (⟨p, k⟩ :: live) L) (hk : k ≤ 10) :
    ∃ L', RepInv n start (buddyFree s p k) live L' ∧
      (buddyFree s p k).buddyMapBase = s.buddyMapBase ∧
      (L' 10 = L 10 ∨ ∃ c, L' 10 = c :: L 10) ∧
      freeSet L' 11 = freeSet L 11 ∪ (Block.mk p k).pages ∧
      ∀ i ∉ freeSet L 10 ∪ (Block.mk p k).pages, (buddyFree s p k).page i = s.page i := by
  have hpos : (0 : ℤ) < 2 ^ k := by positivity
  have hrange := h.liveRange _ List.mem_cons_self
  have hsize := h.size
  simp only at hrange
  have hidx : s.buddyMapBase + (BitVec.ofInt 32 (p - s.buddyMapBase)).toInt = p :=
    toInt_pageIdx (by omega) (by omega)
  rw [← hidx] at h
  obtain ⟨hord, hbase, L₁, hrep, htop, hset, hframe⟩ :=
    buddyFreeLoop_spec (buddyChunkNum - 1 - k) h hk
  rw [hidx] at hset
  set r := buddyFreeLoop (buddyChunkNum - 1 - k) s (BitVec.ofInt 32 (p - s.buddyMapBase)) k with hr
  have heq : Mm.buddyFree s p k = linkBlock r.1 (s.buddyMapBase + r.2.1.toInt) r.2.2 := by
    rw [← hbase]
    rfl
  refine ⟨_, heq ▸ hrep.give (by omega), by rw [heq, linkBlock_base, hbase], ?_, ?_, ?_⟩
  · by_cases ho : r.2.2 = 10
    · exact Or.inr ⟨_, by rw [ho, setList_self, htop]⟩
    · exact Or.inl (by rw [setList_ne _ (Ne.symm ho), htop])
  · rw [freeSet_give _ (by omega), freeSet_eleven, freeSet_eleven, htop, Set.union_right_comm,
      ← hset, Set.union_right_comm]
  · intro i hi
    have hi' := hi
    rw [hset, Set.mem_union, not_or] at hi'
    have hne : i ≠ s.buddyMapBase + r.2.1.toInt := by
      rintro rfl
      exact hi'.2 (Block.page_mem ⟨_, r.2.2⟩)
    rw [heq, linkBlock_page _ _ hne]
    exact hframe i fun hif => hi (Or.inl hif)

end Free

/-! ## `buddy_alloc` -/

section Alloc

variable {n : ℕ} {start : ℤ} {live : List Block}

/-- The loop of `expand` cuts the block down to the order asked for and gives each upper half back. -/
theorem expandLoop_spec {order c : ℕ} {s : State} {L : ℕ → List ℤ} {p : ℤ}
    (h : RepInv n start s (⟨p, c⟩ :: live) L) (hc : c ≤ 10) (ho : order ≤ c) :
    let s' := expandLoop p order c (2 ^ c) s
    s'.buddyMapBase = s.buddyMapBase ∧
      ∃ L', RepInv n start s' (⟨p, order⟩ :: live) L' ∧ L' 10 = L 10 ∧
        freeSet L 10 ∪ (Block.mk p c).pages = freeSet L' 10 ∪ (Block.mk p order).pages ∧
        ∀ i, i = p ∨ i ∉ (Block.mk p c).pages → s'.page i = s.page i := by
  induction c generalizing s L with
  | zero =>
      obtain rfl : order = 0 := by omega
      exact ⟨rfl, L, h, rfl, rfl, fun _ _ => rfl⟩
  | succ c ih =>
      simp only [expandLoop]
      split
      · rename_i hlt
        have hsize : 2 ^ (c + 1) >>> 1 = 2 ^ c := by
          rw [Nat.shiftRight_eq_div_pow, pow_succ]
          omega
        rw [hsize]
        have hgive := h.split.give (by omega)
        obtain ⟨hbase, L', hrep, htop, hset, hframe⟩ := ih hgive (by omega) (by omega)
        push_cast
        refine ⟨hbase, L', hrep, by rw [htop, setList_ne L (by omega)], ?_, fun i hi => ?_⟩
        · rw [← hset, freeSet_give L (by omega), Block.pages_succ,
            Set.union_comm (Block.mk p c).pages, Set.union_assoc]
        · -- only the first page of the upper half is marked
          have hpos : (0 : ℤ) < 2 ^ c := by positivity
          rw [Block.pages_succ, Set.mem_union, not_or] at hi
          have hup : i ≠ p + 2 ^ c := by
            rintro rfl
            rcases hi with hi | hi
            · omega
            · exact hi.2 (Block.page_mem ⟨_, c⟩)
          exact (hframe i (hi.imp_right And.left)).trans (linkBlock_page s c hup)
      · obtain rfl : order = c + 1 := by omega
        exact ⟨rfl, L, h, rfl, rfl, fun _ _ => rfl⟩

/-- What `buddy_alloc` finds out before it takes a block. -/
theorem servingOrder_eq_some {s : State} {order c : ℕ} (h : servingOrder s order = some c) :
    order ≤ c ∧ c < 11 ∧ s.list.next (.head c) ≠ .head c := by
  have hp := List.find?_some h
  have hm := List.mem_of_find?_eq_some h
  rw [List.mem_range'_1] at hm
  simp only [listIsEmpty, Bool.not_eq_eq_eq_not, Bool.not_true,
    decide_eq_false_iff_not] at hp
  simp only [buddyChunkNum] at hm
  exact ⟨hm.1, by omega, hp⟩

/-- The block that `buddy_alloc` takes is the first one of the serving list. -/
theorem RepInv.servingOrder_head {s : State} {L : ℕ → List ℤ} {order c : ℕ}
    (h : RepInv n start s live L) (hc : servingOrder s order = some c) :
    ∃ p rest, L c = p :: rest ∧ s.list.next (.head c) = .page p := by
  obtain ⟨-, hc11, hne⟩ := servingOrder_eq_some hc
  have hring := h.ring c hc11
  cases hL : L c with
  | nil =>
      rw [hL] at hring
      exact absurd hring.seg.1 hne
  | cons p rest =>
      rw [hL] at hring
      exact ⟨p, rest, rfl, hring.seg.1⟩

/-- `buddy_alloc` served from a list of order below 10 takes exactly the pages of the block it
returns off the free lists, and leaves the list of order 10 alone. -/
theorem RepInv.buddyAlloc {s : State} {L : ℕ → List ℤ} {order c : ℕ}
    (h : RepInv n start s live L) (hserve : servingOrder s order = some c) (hc : c < 10) :
    ∃ p s' L', buddyAlloc s order = some (some p, s') ∧ RepInv n start s' (⟨p, order⟩ :: live) L' ∧
      s'.buddyMapBase = s.buddyMapBase ∧ L' 10 = L 10 ∧
      freeSet L 10 = freeSet L' 10 ∪ (Block.mk p order).pages ∧
      pageInBuddy s' p = false ∧ ∀ i ∉ freeSet L 10, s'.page i = s.page i := by
  obtain ⟨ho, -, -⟩ := servingOrder_eq_some hserve
  obtain ⟨p, rest, hL, hnext⟩ := h.servingOrder_head hserve
  have hp : p ∈ L c := by simp [hL]
  obtain ⟨hbase, L', hrep, htop, hset, hframe⟩ := expandLoop_spec (h.take_lt hc hp) (by omega) ho
  refine ⟨p, _, L', ?_, hrep, hbase, ?_, ?_, ?_, fun i hi => ?_⟩
  · simp only [Mm.buddyAlloc, hserve, hnext, containerOf, expand, buddyChunkNum,
      show ¬ c = 11 - 1 by omega, if_false, Nat.one_shiftLeft]
    rfl
  · rw [htop, setList_ne L (by omega)]
  · rw [freeSet_take L hc hp, hset]
  · rw [pageInBuddy, hframe p (Or.inl rfl)]
    exact pageInBuddy_unlinkBlock s p c
  · rw [freeSet_take L hc hp, Set.mem_union, not_or] at hi
    exact (hframe i (Or.inr hi.2)).trans
      (unlinkBlock_page s c fun hip => hi.2 (hip ▸ Block.page_mem ⟨_, c⟩))

end Alloc

/-! ## The core keeps the representation below order 10 -/

/-- Some free lists represent the state with these live blocks, as far as orders below 10 go. -/
def Represents (start : ℤ) (s : State) (live : List Block) : Prop := ∃ L, RepInv 10 start s live L

/-- The merges of `buddy_free(page, order)`. -/
def freeMerges (s : State) (p : ℤ) (order : ℕ) : List (ℤ × ℤ × ℕ) :=
  buddyMerges (buddyChunkNum - 1 - order) s (BitVec.ofInt 32 (p - s.buddyMapBase)) order

/-- An allocator with eight pages, none of them on a list. -/
def emptyState : State where
  page := fun _ => ⟨0, 0, 0⟩
  list := ⟨id, id⟩
  freeNum := fun _ => 0
  buddyMapBase := 8
  lowmemPages := 0
  kernMemEnd := 0

theorem emptyState_repInv : RepInv 10 0 emptyState [⟨2, 0⟩, ⟨3, 0⟩] fun _ => [] where
  orders := Or.inl rfl
  ring := fun k _ => Links.IsRing.of_selfLoop rfl rfl
  freeDisjoint := by simp
  liveDisjoint := by simp
  livePairwise := by simp [Block.disjoint_iff]
  topFree := by simp
  topLive := by simp
  marked := by
    intro i _ _ k _
    simp [Marked, pageInBuddy, emptyState, getBit]
  freeNum := by simp [emptyState]
  freeRange := by simp
  liveRange := by simp [emptyState]
  size := by simp [emptyState]

end Shaunos.Mm
