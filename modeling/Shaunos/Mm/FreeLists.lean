import Mathlib
import Shaunos.Mm.Buddy

/-!
# The representation invariant of the free lists

A block is `2 ^ order` consecutive pages. `RepInv n s live L` relates the allocator's state to the
blocks it manages: `L k` lists the first pages of the free blocks of order `k`, and `live` are the
blocks that are not free. Blocks of order below `n` are pairwise disjoint; the pages that carry
`PAGE_BUDDY` with an order below 10 are exactly the first pages of the free blocks of that order,
and `free_num` counts them. Order 10 has no such marks: `buddy_init` marks every page with it.

Everything the allocator does to the lists is one of five moves, each with one lemma:

* `RepInv.take` — a free block leaves its list and becomes live,
* `RepInv.give` — a live block goes onto the list of its order,
* `RepInv.introduce` — pages that belonged to no block become a free block of order 10,
* `RepInv.split` — a live block is read as its two halves,
* `RepInv.join` — two adjacent live blocks of one order are read as one.
-/

namespace Shaunos.Mm

open Bitops

/-! ## Blocks -/

/-- `2 ^ order` consecutive pages. -/
structure Block where
  page : ℤ
  order : ℕ
  deriving DecidableEq

/-- The pages of a block. -/
def Block.pages (b : Block) : Set ℤ := Set.Ico b.page (b.page + 2 ^ b.order)

/-- Disjointness of the page sets of two blocks, in the form the proofs compute with. -/
theorem Block.disjoint_iff (a b : Block) : Disjoint a.pages b.pages ↔
    a.page + 2 ^ a.order ≤ b.page ∨ b.page + 2 ^ b.order ≤ a.page := by
  have ha : (0 : ℤ) < 2 ^ a.order := by positivity
  have hb : (0 : ℤ) < 2 ^ b.order := by positivity
  rw [Set.disjoint_left]
  constructor
  · intro h
    by_contra hc
    push Not at hc
    refine h (a := max a.page b.page) ?_ ?_ <;> simp [Block.pages] <;> omega
  · rintro h x ⟨h₁, h₂⟩ ⟨h₃, h₄⟩
    omega

theorem Block.page_mem (b : Block) : b.page ∈ b.pages := by
  have : (0 : ℤ) < 2 ^ b.order := by positivity
  exact ⟨le_rfl, by omega⟩

/-- A block of order `k + 1` is its two halves of order `k`. -/
theorem Block.pages_succ (p : ℤ) (k : ℕ) :
    (Block.mk p (k + 1)).pages = (Block.mk p k).pages ∪ (Block.mk (p + 2 ^ k) k).pages := by
  have hk : (0 : ℤ) < 2 ^ k := by positivity
  ext x
  simp only [Block.pages, Set.mem_union, Set.mem_Ico]
  omega

/-! ## The moves on the state -/

/-- A page carries `PAGE_BUDDY` with order `k`. -/
def Marked (s : State) (p : ℤ) (k : ℕ) : Prop :=
  pageInBuddy s p = true ∧ (s.page p).priv = BitVec.ofNat 32 k

/-- Take the block at `p` off the list of its order: `list_del`, `free_num--`, `rmv_page_order`. -/
def unlinkBlock (s : State) (p : ℤ) (k : ℕ) : State :=
  rmvPageOrder ((listDel s (.page p)).modifyFreeNum k (· - 1)) p

/-- Put the block at `p` on the list of its order: `list_add`, `free_num++`, `set_page_order`. -/
def linkBlock (s : State) (p : ℤ) (k : ℕ) : State :=
  setPageOrder ((listAdd s (.head k) (.page p)).modifyFreeNum k (· + 1)) p k

@[simp] theorem unlinkBlock_base (s : State) (p : ℤ) (k : ℕ) :
    (unlinkBlock s p k).buddyMapBase = s.buddyMapBase := rfl

@[simp] theorem linkBlock_base (s : State) (p : ℤ) (k : ℕ) :
    (linkBlock s p k).buddyMapBase = s.buddyMapBase := rfl

@[simp] theorem unlinkBlock_list (s : State) (p : ℤ) (k : ℕ) :
    (unlinkBlock s p k).list = s.list.unlink (.page p) := rfl

@[simp] theorem linkBlock_list (s : State) (p : ℤ) (k : ℕ) :
    (linkBlock s p k).list = s.list.insertAfter (.head k) (.page p) := rfl

/-- Taking a block off its list changes no other descriptor. -/
theorem unlinkBlock_page (s : State) {p i : ℤ} (k : ℕ) (hi : i ≠ p) :
    (unlinkBlock s p k).page i = s.page i := Function.update_of_ne hi _ _

/-- Putting a block on its list changes no other descriptor. -/
theorem linkBlock_page (s : State) {p i : ℤ} (k : ℕ) (hi : i ≠ p) :
    (linkBlock s p k).page i = s.page i := Function.update_of_ne hi _ _

theorem unlinkBlock_freeNum (s : State) (p : ℤ) (k j : ℕ) :
    (unlinkBlock s p k).freeNum j = if j = k then s.freeNum k - 1 else s.freeNum j := by
  simp [unlinkBlock, rmvPageOrder, State.modify, State.modifyFreeNum, listDel,
    Function.update_apply]

theorem linkBlock_freeNum (s : State) (p : ℤ) (k j : ℕ) :
    (linkBlock s p k).freeNum j = if j = k then s.freeNum k + 1 else s.freeNum j := by
  simp [linkBlock, setPageOrder, State.modify, State.modifyFreeNum, listAdd,
    Function.update_apply]

/-- Orders below 11 are told apart by their `private` value. -/
theorem ofNat_order_inj {j k : ℕ} (hj : j < 11) (hk : k < 11) :
    BitVec.ofNat 32 j = BitVec.ofNat 32 k ↔ j = k := by
  rw [← BitVec.toNat_inj, BitVec.toNat_ofNat, BitVec.toNat_ofNat, Nat.mod_eq_of_lt (by omega),
    Nat.mod_eq_of_lt (by omega)]

/-- After the block at `p` is taken off its list, `p` carries no mark and no other mark changed. -/
theorem marked_unlinkBlock (s : State) (p : ℤ) (k : ℕ) (i : ℤ) (j : ℕ) :
    Marked (unlinkBlock s p k) i j ↔ i ≠ p ∧ Marked s i j := by
  by_cases hi : i = p
  · subst hi
    simp [Marked, pageInBuddy, unlinkBlock, rmvPageOrder, State.modify, State.modifyFreeNum,
      listDel, getBit_clearBit (show pageBuddy < 32 by decide)]
  · simp [Marked, pageInBuddy, unlinkBlock, rmvPageOrder, State.modify, State.modifyFreeNum,
      listDel, hi]

/-- The first page of a block just taken carries no `PAGE_BUDDY`. -/
theorem pageInBuddy_unlinkBlock (s : State) (p : ℤ) (k : ℕ) :
    pageInBuddy (unlinkBlock s p k) p = false := by
  simp [pageInBuddy, unlinkBlock, rmvPageOrder, State.modify, State.modifyFreeNum, listDel,
    getBit_clearBit (show pageBuddy < 32 by decide)]

/-- After the block at `p` is put on list `k`, `p` carries the mark `k` and no other mark changed. -/
theorem marked_linkBlock (s : State) (p : ℤ) {k j : ℕ} (hk : k < 11) (hj : j < 11) (i : ℤ) :
    Marked (linkBlock s p k) i j ↔ (i = p ∧ j = k) ∨ (i ≠ p ∧ Marked s i j) := by
  by_cases hi : i = p
  · subst hi
    simp [Marked, pageInBuddy, linkBlock, setPageOrder, State.modify, State.modifyFreeNum,
      listAdd, getBit_setBit (show pageBuddy < 32 by decide), ofNat_order_inj hk hj,
      eq_comm (a := k)]
  · simp [Marked, pageInBuddy, linkBlock, setPageOrder, State.modify, State.modifyFreeNum,
      listAdd, hi]

/-! ## The invariant -/

/-- The free lists with one list changed. -/
def setList (L : ℕ → List ℤ) (k : ℕ) (xs : List ℤ) : ℕ → List ℤ := Function.update L k xs

@[simp] theorem setList_self (L : ℕ → List ℤ) (k : ℕ) (xs : List ℤ) : setList L k xs k = xs := by
  simp [setList]

theorem setList_ne (L : ℕ → List ℤ) {j k : ℕ} (h : j ≠ k) (xs : List ℤ) :
    setList L k xs j = L j := by
  simp [setList, h]

/-- The pages of the free blocks of order below `n`. -/
def freeSet (L : ℕ → List ℤ) (n : ℕ) : Set ℤ := {x | ∃ k < n, ∃ i ∈ L k, x ∈ (Block.mk i k).pages}

/-- A list of distinct pages of a range is no longer than the range. -/
theorem length_le_of_nodup {xs : List ℤ} {a b : ℤ} (hnd : xs.Nodup) (h : ∀ i ∈ xs, a ≤ i ∧ i < b) :
    xs.length ≤ (b - a).toNat := by
  rw [← List.toFinset_card_of_nodup hnd, ← Int.card_Ico]
  exact Finset.card_le_card fun i hi => Finset.mem_Ico.mpr (h i (List.mem_toFinset.mp hi))

/-- How blocks are laid out: `L k` are the first pages of the free blocks of order `k`, `live` are the
other blocks, and blocks of order below `n` are disjoint. -/
structure Layout (n : ℕ) (l : Links Node) (live : List Block) (L : ℕ → List ℤ) : Prop where
  /-- Order 10 is covered or it is not. -/
  orders : n = 10 ∨ n = 11
  /-- Every list is a well-formed circular list. -/
  ring : ∀ k < 11, l.IsRing (.head k) ((L k).map .page)
  /-- Free blocks are pairwise disjoint. -/
  freeDisjoint : ∀ j < n, ∀ k < n, ∀ i ∈ L j, ∀ i' ∈ L k, (i, j) ≠ (i', k) →
    Disjoint (Block.mk i j).pages (Block.mk i' k).pages
  /-- Free blocks are disjoint from live blocks. -/
  liveDisjoint : ∀ b ∈ live, ∀ k < n, ∀ i ∈ L k, Disjoint b.pages (Block.mk i k).pages
  /-- Live blocks are pairwise disjoint. -/
  livePairwise : live.Pairwise fun a b => Disjoint a.pages b.pages
  /-- The first page of a free block of order 10 is in no other block. -/
  topFree : ∀ k < 10, ∀ i ∈ L k, ∀ t ∈ L 10, t ∉ (Block.mk i k).pages
  topLive : ∀ b ∈ live, ∀ t ∈ L 10, t ∉ b.pages

/-- The representation invariant: the layout of the blocks, and what the descriptors and counters say
about the free blocks of order below 10. -/
structure RepInv (n : ℕ) (start : ℤ) (s : State) (live : List Block) (L : ℕ → List ℤ) : Prop
    extends Layout n s.list live L where
  /-- A page is marked with an order below 10 exactly when it heads a free block of that order. This
  is about the managed range and the pages next to it, where a buddy can be looked for. -/
  marked : ∀ i, start - 2 ^ 9 ≤ i → i < s.buddyMapBase → ∀ k < 10, (Marked s i k ↔ i ∈ L k)
  /-- `free_num` is the length of the list. -/
  freeNum : ∀ k < 10, (s.freeNum k).toNat = (L k).length
  /-- The blocks of order below 10 lie in the managed range. -/
  freeRange : ∀ k < 10, ∀ i ∈ L k, start ≤ i ∧ i + 2 ^ k ≤ s.buddyMapBase
  liveRange : ∀ b ∈ live, start ≤ b.page ∧ b.page + 2 ^ b.order ≤ s.buddyMapBase
  /-- The descriptors of the managed range fit into the address space. -/
  size : s.buddyMapBase - start ≤ 2 ^ 31

/-! ## Moves on the layout -/

namespace Layout

variable {n : ℕ} {l : Links Node} {live : List Block} {L : ℕ → List ℤ} {p : ℤ} {k : ℕ}

theorem nodup (h : Layout n l live L) (hk : k < 11) : (L k).Nodup :=
  List.Nodup.of_map _ (h.ring k hk).members_nodup

/-- A page is linked on one list at most. -/
theorem separate (h : Layout n l live L) {j : ℕ} (hj : j < 11) (hk : k < 11) (hjk : j ≠ k) :
    ∀ i ∈ L j, i ∉ L k := by
  have hn := h.orders
  intro i hi hi'
  have hself : ∀ m, i ∈ (Block.mk i m).pages := fun m => Block.page_mem ⟨i, m⟩
  rcases Nat.lt_or_ge j 10 with hj' | hj'
  · rcases Nat.lt_or_ge k 10 with hk' | hk'
    · exact Set.disjoint_left.mp (h.freeDisjoint j (by omega) k (by omega) i hi i hi' (by simp [hjk]))
        (hself j) (hself k)
    · obtain rfl : k = 10 := by omega
      exact h.topFree j hj' i hi i hi' (hself j)
  · obtain rfl : j = 10 := by omega
    exact h.topFree k (by omega) i hi' i hi (hself k)

/-- The rings of two orders share no node. -/
theorem nodes_disjoint (h : Layout n l live L) {j : ℕ} (hj : j < 11) (hk : k < 11) (hjk : j ≠ k) :
    ∀ m ∈ Node.head j :: (L j).map Node.page, m ∉ Node.head k :: (L k).map Node.page := by
  intro m hm hm'
  simp only [List.mem_cons, List.mem_map] at hm hm'
  rcases hm with rfl | ⟨i, hi, rfl⟩
  · simp [hjk] at hm'
  · simp only [reduceCtorEq, Node.page.injEq, exists_eq_right, false_or] at hm'
    exact h.separate hj hk hjk i hi hm'

/-- The nodes met on the walk from a list head are the free blocks of that order. -/
theorem onRing_iff (h : Layout n l live L) (hk : k < 11) :
    l.OnRing (.head k) (.page p) ↔ p ∈ L k := by
  rw [(h.ring k hk).onRing_iff]
  simp

/-- A free block may leave its list and become live. -/
theorem erase (h : Layout n l live L) (hk : k < 11) (hkn : k < n) (hp : p ∈ L k) :
    Layout n (l.unlink (.page p)) (⟨p, k⟩ :: live) (setList L k ((L k).erase p)) := by
  have hmem : ∀ j, ∀ i ∈ setList L k ((L k).erase p) j, i ∈ L j ∧ (i, j) ≠ (p, k) := by
    intro j i hi
    by_cases hj : j = k
    · subst hj
      rw [setList_self, (h.nodup (by omega)).mem_erase_iff] at hi
      exact ⟨hi.2, by simp [hi.1]⟩
    · rw [setList_ne L hj] at hi
      exact ⟨hi, by simp [hj]⟩
  refine ⟨h.orders, ?ring, ?freeDisjoint, ?liveDisjoint, ?livePairwise, ?topFree, ?topLive⟩
  case ring =>
    intro j hj
    have hpk : Node.page p ∈ (L k).map Node.page := List.mem_map_of_mem hp
    by_cases hjk : j = k
    · subst hjk
      rw [setList_self, List.map_erase (fun _ _ h => Node.page.inj h)]
      exact (h.ring j hj).unlink hpk
    · rw [setList_ne L hjk]
      exact (h.ring k hk).unlink_frame (h.ring j hj) (h.nodes_disjoint hk hj (Ne.symm hjk)) hpk
  case freeDisjoint =>
    intro j hj j' hj' i hi i' hi' hne
    exact h.freeDisjoint j hj j' hj' i (hmem j i hi).1 i' (hmem j' i' hi').1 hne
  case liveDisjoint =>
    intro b hb j hj i hi
    rcases List.mem_cons.mp hb with rfl | hb
    · exact h.freeDisjoint k hkn j hj p hp i (hmem j i hi).1 (Ne.symm (hmem j i hi).2)
    · exact h.liveDisjoint b hb j hj i (hmem j i hi).1
  case livePairwise =>
    exact List.pairwise_cons.mpr
      ⟨fun b hb => (h.liveDisjoint b hb k hkn p hp).symm, h.livePairwise⟩
  case topFree =>
    exact fun j hj i hi t ht => h.topFree j hj i (hmem j i hi).1 t (hmem 10 t ht).1
  case topLive =>
    intro b hb t ht
    obtain ⟨htL, htp⟩ := hmem 10 t ht
    rcases List.mem_cons.mp hb with rfl | hb
    · by_cases hk' : k = 10
      · subst hk'
        exact Set.disjoint_right.mp (h.freeDisjoint 10 hkn 10 hkn p hp t htL (Ne.symm htp))
          (Block.page_mem ⟨t, 10⟩)
      · exact h.topFree k (by omega) p hp t htL
    · exact h.topLive b hb t htL

/-- A block outside every other one may go onto the list of its order. -/
theorem insert (h : Layout n l live L) (hk : k < 11)
    (hfree : ∀ j < n, ∀ i ∈ L j, Disjoint (Block.mk p k).pages (Block.mk i j).pages)
    (hlive : ∀ b ∈ live, Disjoint (Block.mk p k).pages b.pages)
    (htop : ∀ t ∈ L 10, t ∉ (Block.mk p k).pages) :
    Layout n (l.insertAfter (.head k) (.page p)) live (setList L k (p :: L k)) := by
  have hn := h.orders
  have hpp : ∀ k, p ∈ (Block.mk p k).pages := fun k => Block.page_mem ⟨p, k⟩
  have hpL : ∀ j < 11, p ∉ L j := by
    intro j hj hpj
    by_cases hj' : j = 10
    · subst hj'
      exact htop p hpj (hpp k)
    · exact Set.disjoint_left.mp (hfree j (by omega) p hpj) (hpp k) (hpp j)
  have hmem : ∀ j, ∀ i ∈ setList L k (p :: L k) j, (i = p ∧ j = k) ∨ i ∈ L j := by
    intro j i hi
    by_cases hj : j = k
    · subst hj
      rw [setList_self, List.mem_cons] at hi
      exact hi.imp_left fun hi => ⟨hi, rfl⟩
    · rw [setList_ne L hj] at hi
      exact Or.inr hi
  refine ⟨h.orders, ?ring, ?freeDisjoint, ?liveDisjoint, h.livePairwise, ?topFree, ?topLive⟩
  case ring =>
    intro j hj
    have hnot : ∀ j < 11, Node.page p ∉ Node.head j :: (L j).map Node.page := by
      intro j hj
      simpa using hpL j hj
    by_cases hjk : j = k
    · subst hjk
      rw [setList_self]
      exact (h.ring j hj).insertAfter (hnot j hj)
    · rw [setList_ne L hjk]
      exact (h.ring k hk).insertAfter_frame (h.ring j hj)
        (h.nodes_disjoint hk hj (Ne.symm hjk)) (hnot j hj)
  case freeDisjoint =>
    intro j hj j' hj' i hi i' hi' hne
    rcases hmem j i hi with ⟨rfl, rfl⟩ | hiL
    · rcases hmem j' i' hi' with ⟨rfl, rfl⟩ | hiL'
      · exact absurd rfl hne
      · exact hfree j' hj' i' hiL'
    · rcases hmem j' i' hi' with ⟨rfl, rfl⟩ | hiL'
      · exact (hfree j hj i hiL).symm
      · exact h.freeDisjoint j hj j' hj' i hiL i' hiL' hne
  case liveDisjoint =>
    intro b hb j hj i hi
    rcases hmem j i hi with ⟨rfl, rfl⟩ | hi
    · exact (hlive b hb).symm
    · exact h.liveDisjoint b hb j hj i hi
  case topFree =>
    intro j hj i hi t ht
    rcases hmem 10 t ht with ⟨rfl, rfl⟩ | htL
    · rcases hmem j i hi with ⟨-, rfl⟩ | hiL
      · omega
      · exact Set.disjoint_left.mp (hfree j (by omega) i hiL) (hpp 10)
    · rcases hmem j i hi with ⟨rfl, rfl⟩ | hiL
      · exact htop t htL
      · exact h.topFree j hj i hiL t htL
  case topLive =>
    intro b hb t ht
    rcases hmem 10 t ht with ⟨rfl, rfl⟩ | htL
    · exact Set.disjoint_left.mp (hlive b hb) (hpp 10)
    · exact h.topLive b hb t htL

end Layout

/-! ## Moves on the state -/

namespace RepInv

variable {n : ℕ} {start : ℤ} {s : State} {live : List Block} {L : ℕ → List ℤ} {p : ℤ} {k : ℕ}

/-- **Take.** A free block of the managed range leaves its list and becomes live. -/
theorem take (h : RepInv n start s live L) (hk : k < 11) (hkn : k < n) (hp : p ∈ L k)
    (hrange : start ≤ p ∧ p + 2 ^ k ≤ s.buddyMapBase) :
    RepInv n start (unlinkBlock s p k) (⟨p, k⟩ :: live) (setList L k ((L k).erase p)) := by
  refine ⟨h.toLayout.erase hk hkn hp, ?marked, ?freeNum, ?freeRange, ?liveRange, h.size⟩
  case marked =>
    intro i hlo hi j hj
    rw [marked_unlinkBlock, h.marked i hlo hi j hj]
    by_cases hjk : j = k
    · subst hjk
      rw [setList_self, (h.nodup (by omega)).mem_erase_iff]
    · rw [setList_ne L hjk, and_iff_right_iff_imp]
      rintro hij rfl
      exact h.separate (by omega) (by omega) (Ne.symm hjk) i hp hij
  case freeNum =>
    intro j hj
    rw [unlinkBlock_freeNum]
    by_cases hjk : j = k
    · subst hjk
      have hpos := List.length_pos_of_mem hp
      have hnum := h.freeNum j hj
      have hone : (1 : BitVec 32).toNat = 1 := rfl
      rw [if_pos rfl, setList_self, List.length_erase_of_mem hp, ← hnum, BitVec.toNat_sub, hone]
      omega
    · rw [if_neg hjk, setList_ne L hjk, h.freeNum j hj]
  case freeRange =>
    intro j hj i hi
    by_cases hjk : j = k
    · subst hjk
      rw [setList_self] at hi
      exact h.freeRange j hj i (List.mem_of_mem_erase hi)
    · exact h.freeRange j hj i (setList_ne L hjk _ ▸ hi)
  case liveRange =>
    intro b hb
    rcases List.mem_cons.mp hb with rfl | hb
    · exact hrange
    · exact h.liveRange b hb

/-- Take, for the orders whose free blocks are known to lie in the managed range. -/
theorem take_lt (h : RepInv n start s live L) (hk : k < 10) (hp : p ∈ L k) :
    RepInv n start (unlinkBlock s p k) (⟨p, k⟩ :: live) (setList L k ((L k).erase p)) :=
  h.take (by omega) (by have := h.orders; omega) hp (h.freeRange k hk p hp)

/-- **Give.** A live block goes onto the list of its order. -/
theorem give (h : RepInv n start s (⟨p, k⟩ :: live) L) (hk : k < 11) :
    RepInv n start (linkBlock s p k) live (setList L k (p :: L k)) := by
  have hn := h.orders
  have hpair := List.pairwise_cons.mp h.livePairwise
  have hp : (Block.mk p k) ∈ (⟨p, k⟩ :: live : List Block) := List.mem_cons_self
  have hlive : ∀ b ∈ live, b ∈ (⟨p, k⟩ :: live : List Block) := fun b hb => by simp [hb]
  have hpL : ∀ j < 10, p ∉ L j := fun j hj hpj =>
    Set.disjoint_left.mp (h.liveDisjoint _ hp j (by omega) p hpj) (Block.page_mem ⟨p, k⟩)
      (Block.page_mem ⟨p, j⟩)
  refine ⟨?layout, ?marked, ?freeNum, ?freeRange, fun b hb => h.liveRange b (hlive b hb), h.size⟩
  case layout =>
    have hrest : Layout n s.list live L :=
      { h.toLayout with
        liveDisjoint := fun b hb => h.liveDisjoint b (hlive b hb)
        livePairwise := hpair.2
        topLive := fun b hb => h.topLive b (hlive b hb) }
    exact hrest.insert hk (h.liveDisjoint _ hp) hpair.1 (h.topLive _ hp)
  case marked =>
    intro i hlo hi j hj
    rw [marked_linkBlock s p hk (by omega), h.marked i hlo hi j hj]
    by_cases hjk : j = k
    · subst hjk
      rw [setList_self, List.mem_cons]
      constructor
      · rintro (⟨rfl, -⟩ | ⟨-, hi⟩)
        · exact Or.inl rfl
        · exact Or.inr hi
      · rintro (rfl | hi)
        · exact Or.inl ⟨rfl, rfl⟩
        · exact Or.inr ⟨fun hip => hpL j hj (hip ▸ hi), hi⟩
    · rw [setList_ne L hjk]
      simp only [hjk, and_false, false_or, and_iff_right_iff_imp]
      rintro hij rfl
      exact hpL j hj hij
  case freeNum =>
    intro j hj
    rw [linkBlock_freeNum]
    by_cases hjk : j = k
    · subst hjk
      have hnum := h.freeNum j hj
      have hlen : (p :: L j).length ≤ (s.buddyMapBase - start).toNat := by
        refine length_le_of_nodup (List.nodup_cons.mpr ⟨hpL j hj, h.nodup (by omega)⟩) ?_
        have hpos : (0 : ℤ) < 2 ^ j := by positivity
        intro i hi
        rcases List.mem_cons.mp hi with rfl | hi
        · have := h.liveRange _ hp
          simp only at this
          omega
        · have := h.freeRange j hj i hi
          omega
      have hsize := h.size
      have hone : (1 : BitVec 32).toNat = 1 := rfl
      rw [List.length_cons] at hlen
      rw [if_pos rfl, setList_self, List.length_cons, ← hnum, BitVec.toNat_add, hone]
      omega
    · rw [if_neg hjk, setList_ne L hjk, h.freeNum j hj]
  case freeRange =>
    intro j hj i hi
    by_cases hjk : j = k
    · subst hjk
      rw [setList_self, List.mem_cons] at hi
      rcases hi with rfl | hi
      · exact h.liveRange _ hp
      · exact h.freeRange j hj i hi
    · exact h.freeRange j hj i (setList_ne L hjk _ ▸ hi)

/-- **Introduce.** Pages outside every block go onto the list of order 10 as a new block. -/
theorem introduce (h : RepInv n start s live L)
    (hfree : ∀ k < 11, ∀ i ∈ L k, Disjoint (Block.mk p 10).pages (Block.mk i k).pages)
    (hlive : ∀ b ∈ live, Disjoint (Block.mk p 10).pages b.pages) :
    RepInv n start (listAdd s (.head 10) (.page p)) live (setList L 10 (p :: L 10)) := by
  have hn := h.orders
  have hold : ∀ j < 10, setList L 10 (p :: L 10) j = L j := fun j hj => setList_ne L (by omega) _
  refine ⟨h.toLayout.insert (by omega) (fun j hj => hfree j (by omega)) hlive ?_,
    fun i hlo hi j hj => (h.marked i hlo hi j hj).trans (by rw [hold j hj]),
    fun j hj => (h.freeNum j hj).trans (by rw [hold j hj]),
    fun j hj i hi => h.freeRange j hj i (hold j hj ▸ hi), h.liveRange, h.size⟩
  exact fun t ht => Set.disjoint_right.mp (hfree 10 (by omega) t ht) (Block.page_mem ⟨t, 10⟩)

/-- The live blocks may be cut up in another way: only the pages they cover matter. -/
theorem relive {live' : List Block} (h : RepInv n start s live L)
    (hcover : ∀ b ∈ live', ∀ x ∈ b.pages, ∃ a ∈ live, x ∈ a.pages)
    (hpair : live'.Pairwise fun a b => Disjoint a.pages b.pages)
    (hrange : ∀ b ∈ live', start ≤ b.page ∧ b.page + 2 ^ b.order ≤ s.buddyMapBase) :
    RepInv n start s live' L := by
  refine { h with
    toLayout := { h.toLayout with liveDisjoint := ?_, livePairwise := hpair, topLive := ?_ }
    liveRange := hrange }
  · intro b hb k hk i hi
    refine Set.disjoint_left.mpr fun x hx => ?_
    obtain ⟨a, ha, hxa⟩ := hcover b hb x hx
    exact Set.disjoint_left.mp (h.liveDisjoint a ha k hk i hi) hxa
  · intro b hb t ht htb
    obtain ⟨a, ha, hta⟩ := hcover b hb t htb
    exact h.topLive a ha t ht hta

/-- **Split.** A live block is its two halves. -/
theorem split (h : RepInv n start s (⟨p, k + 1⟩ :: live) L) :
    RepInv n start s (⟨p + 2 ^ k, k⟩ :: ⟨p, k⟩ :: live) L := by
  have hk : (0 : ℤ) < 2 ^ k := by positivity
  have hsub₁ : (Block.mk p k).pages ⊆ (Block.mk p (k + 1)).pages := by
    rw [Block.pages_succ]; exact Set.subset_union_left
  have hsub₂ : (Block.mk (p + 2 ^ k) k).pages ⊆ (Block.mk p (k + 1)).pages := by
    rw [Block.pages_succ]; exact Set.subset_union_right
  obtain ⟨hhead, htail⟩ := List.pairwise_cons.mp h.livePairwise
  refine h.relive ?_ ?_ ?_
  · intro b hb x hx
    simp only [List.mem_cons] at hb
    rcases hb with rfl | rfl | hb
    · exact ⟨_, by simp, hsub₂ hx⟩
    · exact ⟨_, by simp, hsub₁ hx⟩
    · exact ⟨b, by simp [hb], hx⟩
  · simp only [List.pairwise_cons, List.mem_cons, forall_eq_or_imp]
    refine ⟨⟨?_, fun b hb => (hhead b hb).mono_left hsub₂⟩,
      fun b hb => (hhead b hb).mono_left hsub₁, htail⟩
    rw [Block.disjoint_iff]
    exact Or.inr le_rfl
  · have hp := h.liveRange ⟨p, k + 1⟩ (by simp)
    simp only [pow_succ] at hp
    intro b hb
    simp only [List.mem_cons] at hb
    rcases hb with rfl | rfl | hb
    · simp only; omega
    · simp only; omega
    · exact h.liveRange b (by simp [hb])

/-- **Join.** Two adjacent live blocks of one order are one block of the next order. -/
theorem join (h : RepInv n start s (⟨p + 2 ^ k, k⟩ :: ⟨p, k⟩ :: live) L) :
    RepInv n start s (⟨p, k + 1⟩ :: live) L := by
  have hk : (0 : ℤ) < 2 ^ k := by positivity
  have hpw := h.livePairwise
  simp only [List.pairwise_cons, List.mem_cons, forall_eq_or_imp] at hpw
  obtain ⟨⟨-, hhi⟩, hlo, htail⟩ := hpw
  refine h.relive ?_ ?_ ?_
  · intro b hb x hx
    rcases List.mem_cons.mp hb with rfl | hb
    · rw [Block.pages_succ] at hx
      rcases hx with hx | hx
      · exact ⟨_, by simp, hx⟩
      · exact ⟨_, by simp, hx⟩
    · exact ⟨b, by simp [hb], hx⟩
  · refine List.pairwise_cons.mpr ⟨fun b hb => ?_, htail⟩
    rw [Block.pages_succ]
    exact Set.disjoint_union_left.mpr ⟨hlo b hb, hhi b hb⟩
  · have h₁ := h.liveRange ⟨p, k⟩ (by simp)
    have h₂ := h.liveRange ⟨p + 2 ^ k, k⟩ (by simp)
    intro b hb
    rcases List.mem_cons.mp hb with rfl | hb
    · simp only [pow_succ] at h₁ h₂ ⊢
      omega
    · exact h.liveRange b (by simp [hb])

/-- The order in which the live blocks are listed does not matter. -/
theorem perm {live' : List Block} (h : RepInv n start s live L) (hperm : live.Perm live') :
    RepInv n start s live' L := by
  refine h.relive (fun b hb x hx => ⟨b, hperm.mem_iff.mpr hb, hx⟩) ?_
    (fun b hb => h.liveRange b (hperm.mem_iff.mpr hb))
  exact (hperm.pairwise_iff fun {_ _} hab => hab.symm).mp h.livePairwise

/-- A live block is disjoint from the free pages. -/
theorem disjoint_freeSet (h : RepInv n start s live L) {b : Block} (hb : b ∈ live) :
    Disjoint b.pages (freeSet L n) := by
  refine Set.disjoint_left.mpr ?_
  rintro x hx ⟨k, hk, i, hi, hxi⟩
  exact Set.disjoint_left.mp (h.liveDisjoint b hb k hk i hi) hx hxi

end RepInv

/-! ## The free pages -/

/-- The pages of the blocks that the walks along the lists of order below `n` meet. -/
def State.freePages (s : State) (n : ℕ) : Set ℤ :=
  {x | ∃ k < n, ∃ i, s.list.OnRing (.head k) (.page i) ∧ x ∈ (Block.mk i k).pages}

theorem RepInv.freePages_eq {n m : ℕ} {start : ℤ} {s : State} {live : List Block} {L : ℕ → List ℤ}
    (h : RepInv n start s live L) (hm : m ≤ 11) : s.freePages m = freeSet L m := by
  ext x
  simp only [State.freePages, freeSet, Set.mem_ofPred_eq]
  refine exists_congr fun k => and_congr_right fun hk => exists_congr fun i => ?_
  rw [h.onRing_iff (by omega)]

theorem freeSet_give (L : ℕ → List ℤ) {n k : ℕ} (hk : k < n) (p : ℤ) :
    freeSet (setList L k (p :: L k)) n = freeSet L n ∪ (Block.mk p k).pages := by
  ext x
  constructor
  · rintro ⟨j, hj, i, hi, hx⟩
    by_cases hjk : j = k
    · subst hjk
      rw [setList_self, List.mem_cons] at hi
      rcases hi with rfl | hi
      · exact Or.inr hx
      · exact Or.inl ⟨j, hj, i, hi, hx⟩
    · rw [setList_ne L hjk] at hi
      exact Or.inl ⟨j, hj, i, hi, hx⟩
  · rintro (⟨j, hj, i, hi, hx⟩ | hx)
    · refine ⟨j, hj, i, ?_, hx⟩
      by_cases hjk : j = k
      · subst hjk
        simp [hi]
      · rwa [setList_ne L hjk]
    · exact ⟨k, hk, p, by simp, hx⟩

theorem freeSet_take (L : ℕ → List ℤ) {n k : ℕ} (hk : k < n) {p : ℤ} (hp : p ∈ L k) :
    freeSet L n = freeSet (setList L k ((L k).erase p)) n ∪ (Block.mk p k).pages := by
  rw [← freeSet_give _ hk, setList_self]
  ext x
  simp only [freeSet, Set.mem_ofPred_eq]
  refine exists_congr fun j => and_congr_right fun _ => exists_congr fun i => and_congr_left fun _ => ?_
  by_cases hjk : j = k
  · subst hjk
    rw [setList_self]
    exact (List.perm_cons_erase hp).mem_iff
  · rw [setList_ne _ hjk, setList_ne _ hjk]

/-- The free pages are those of order below 10 and those of order 10. -/
theorem freeSet_eleven (L : ℕ → List ℤ) :
    freeSet L 11 = freeSet L 10 ∪ {x | ∃ i ∈ L 10, x ∈ (Block.mk i 10).pages} := by
  ext x
  constructor
  · rintro ⟨k, hk, i, hi, hx⟩
    rcases Nat.lt_succ_iff_lt_or_eq.mp hk with hk | rfl
    · exact Or.inl ⟨k, hk, i, hi, hx⟩
    · exact Or.inr ⟨i, hi, hx⟩
  · rintro (⟨k, hk, i, hi, hx⟩ | ⟨i, hi, hx⟩)
    · exact ⟨k, by omega, i, hi, hx⟩
    · exact ⟨10, by omega, i, hi, hx⟩

end Shaunos.Mm
