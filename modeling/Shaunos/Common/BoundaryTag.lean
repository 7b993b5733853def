import Mathlib.Algebra.BigOperators.Group.List.Basic
import Mathlib.Algebra.Order.Ring.Int
import Mathlib.Tactic.Common

/-!
# Boundary tags

A region is divided into blocks that lie one behind the other. Every block starts with two tags: its size,
with a minus sign when the block is in use, and what the block before it says of itself, which is its size
when it is free and 0 when it is in use. So the neighbours of a block are found from its tags, on both sides.

* `Laid t p a bs` — the tags `t` describe the blocks `bs` from the address `a` on, behind a block that says `p`;
* `laid_append`, `Laid.congr`, `Laid.edit` — how a description is cut, carried over, and changed in one place;
* `Laid.not_adjacent` — no two free blocks lie side by side;
* `gap_of_room` — a stretch that no block in use touches lies in one free block.
-/

namespace BoundaryTag

/-- A block: its size with the tags, and whether it is free. -/
structure Chunk where
  size : ℕ
  free : Bool
  deriving DecidableEq

/-- The size tag of a block. -/
def Chunk.tag (b : Chunk) : ℤ := if b.free then b.size else -b.size

/-- What a block says of itself to the block behind it. -/
def Chunk.back (b : Chunk) : ℕ := if b.free then b.size else 0

@[simp] theorem tag_free (n : ℕ) : (Chunk.mk n true).tag = n := rfl

@[simp] theorem tag_used (n : ℕ) : (Chunk.mk n false).tag = -n := rfl

@[simp] theorem back_free (n : ℕ) : (Chunk.mk n true).back = n := rfl

@[simp] theorem back_used (n : ℕ) : (Chunk.mk n false).back = 0 := rfl

/-- The two tags at every address. -/
structure Tags where
  back : ℕ → ℤ
  size : ℕ → ℤ

/-- The length of a row of blocks. -/
def extent : List Chunk → ℕ
  | [] => 0
  | b :: bs => b.size + extent bs

/-- What the last block of a row says of itself, when the block before the row says `p`. -/
def backOf (p : ℕ) : List Chunk → ℕ
  | [] => p
  | b :: bs => backOf b.back bs

/-- Where the blocks of a row start. -/
def bases (a : ℕ) : List Chunk → List ℕ
  | [] => []
  | b :: bs => a :: bases (a + b.size) bs

/-- Where the free blocks of a row start. -/
def frees (a : ℕ) : List Chunk → List ℕ
  | [] => []
  | b :: bs => if b.free then a :: frees (a + b.size) bs else frees (a + b.size) bs

/-- The blocks in use of a row, and where they start. -/
def busy (a : ℕ) : List Chunk → List (ℕ × Chunk)
  | [] => []
  | b :: bs => if b.free then busy (a + b.size) bs else (a, b) :: busy (a + b.size) bs

/-- The tags describe a row of blocks from `a` on; the block before it says `p` of itself. A free block does
not lie behind a free block. -/
def Laid (t : Tags) (p a : ℕ) : List Chunk → Prop
  | [] => True
  | b :: bs => t.back a = p ∧ t.size a = b.tag ∧ (b.free = true → p = 0) ∧ Laid t b.back (a + b.size) bs

variable {t t' : Tags} {p a s n : ℕ} {b e : Chunk} {bs xs ys ms ms' : List Chunk}

/-! ## Cutting a row -/

@[simp] theorem extent_nil : extent [] = 0 := rfl

@[simp] theorem extent_cons : extent (b :: bs) = b.size + extent bs := rfl

@[simp] theorem extent_append : extent (xs ++ ys) = extent xs + extent ys := by
  induction xs with
  | nil => simp
  | cons x xs ih => simp [ih, Nat.add_assoc]

@[simp] theorem backOf_append : backOf p (xs ++ ys) = backOf (backOf p xs) ys := by
  induction xs generalizing p with
  | nil => rfl
  | cons x xs ih => exact ih

@[simp] theorem bases_append : bases a (xs ++ ys) = bases a xs ++ bases (a + extent xs) ys := by
  induction xs generalizing a with
  | nil => simp [bases]
  | cons x xs ih => simp [bases, ih, Nat.add_assoc]

@[simp] theorem frees_append : frees a (xs ++ ys) = frees a xs ++ frees (a + extent xs) ys := by
  induction xs generalizing a with
  | nil => simp [frees]
  | cons x xs ih =>
      rw [List.cons_append, frees, frees, ih, extent_cons, Nat.add_assoc]
      split_ifs <;> rfl

@[simp] theorem busy_append : busy a (xs ++ ys) = busy a xs ++ busy (a + extent xs) ys := by
  induction xs generalizing a with
  | nil => simp [busy]
  | cons x xs ih =>
      rw [List.cons_append, busy, busy, ih, extent_cons, Nat.add_assoc]
      split_ifs <;> rfl

theorem laid_append : Laid t p a (xs ++ ys) ↔ Laid t p a xs ∧ Laid t (backOf p xs) (a + extent xs) ys := by
  induction xs generalizing p a with
  | nil => simp [Laid, backOf]
  | cons x xs ih =>
      simp only [List.cons_append, Laid, ih, backOf, extent_cons, Nat.add_assoc, and_assoc]

theorem frees_subset (h : s ∈ frees a bs) : s ∈ bases a bs := by
  induction bs generalizing a with
  | nil => exact h
  | cons b bs ih =>
      rw [frees] at h
      rw [bases, List.mem_cons]
      split_ifs at h
      · rcases List.mem_cons.mp h with rfl | h
        · exact .inl rfl
        · exact .inr (ih h)
      · exact .inr (ih h)

theorem mem_bases : s ∈ bases a bs ↔ ∃ xs b ys, bs = xs ++ b :: ys ∧ s = a + extent xs := by
  induction bs generalizing a with
  | nil => simp [bases]
  | cons b bs ih =>
      rw [bases, List.mem_cons, ih]
      constructor
      · rintro (rfl | ⟨xs, c, ys, rfl, rfl⟩)
        · exact ⟨[], b, bs, rfl, by simp⟩
        · exact ⟨b :: xs, c, ys, rfl, by simp [Nat.add_assoc]⟩
      · rintro ⟨xs, c, ys, hbs, rfl⟩
        cases xs with
        | nil => exact .inl (by simp)
        | cons x xs =>
            obtain ⟨rfl, rfl⟩ := List.cons.inj hbs
            exact .inr ⟨xs, c, ys, rfl, by simp [Nat.add_assoc]⟩

theorem mem_frees : s ∈ frees a bs ↔ ∃ xs b ys, bs = xs ++ b :: ys ∧ b.free = true ∧ s = a + extent xs := by
  constructor
  · intro h
    induction bs generalizing a with
    | nil => simp [frees] at h
    | cons b bs ih =>
        have hrest (h : s ∈ frees (a + b.size) bs) :
            ∃ xs c ys, b :: bs = xs ++ c :: ys ∧ c.free = true ∧ s = a + extent xs := by
          obtain ⟨xs, c, ys, rfl, hc, rfl⟩ := ih h
          exact ⟨b :: xs, c, ys, rfl, hc, by simp [Nat.add_assoc]⟩
        rw [frees] at h
        split_ifs at h with hb
        · rcases List.mem_cons.mp h with rfl | h
          · exact ⟨[], b, bs, rfl, hb, by simp⟩
          · exact hrest h
        · exact hrest h
  · rintro ⟨xs, b, ys, rfl, hb, rfl⟩
    simp [frees, hb]

theorem mem_busy : (s, b) ∈ busy a bs ↔ ∃ xs ys, bs = xs ++ b :: ys ∧ b.free = false ∧ s = a + extent xs := by
  constructor
  · intro h
    induction bs generalizing a with
    | nil => simp [busy] at h
    | cons c bs ih =>
        have hrest (h : (s, b) ∈ busy (a + c.size) bs) :
            ∃ xs ys, c :: bs = xs ++ b :: ys ∧ b.free = false ∧ s = a + extent xs := by
          obtain ⟨xs, ys, rfl, hb, rfl⟩ := ih h
          exact ⟨c :: xs, ys, rfl, hb, by simp [Nat.add_assoc]⟩
        rw [busy] at h
        split_ifs at h with hc
        · exact hrest h
        · rcases List.mem_cons.mp h with heq | h
          · obtain ⟨rfl, rfl⟩ := Prod.mk.inj heq
            exact ⟨[], bs, rfl, by simpa using hc, by simp⟩
          · exact hrest h
  · rintro ⟨xs, ys, rfl, hb, rfl⟩
    simp [busy, hb]

theorem busy_eq_nil (h : ∀ b ∈ bs, b.free = true) : busy a bs = [] := by
  induction bs generalizing a with
  | nil => rfl
  | cons b bs ih =>
      rw [busy, if_pos (h b List.mem_cons_self)]
      exact ih fun c hc => h c (List.mem_cons_of_mem b hc)

theorem le_of_mem_bases (h : s ∈ bases a bs) : a ≤ s := by
  obtain ⟨xs, b, ys, -, rfl⟩ := mem_bases.mp h
  omega

theorem lt_of_mem_bases (hpos : ∀ b ∈ bs, 0 < b.size) (h : s ∈ bases a bs) : s < a + extent bs := by
  obtain ⟨xs, b, ys, rfl, rfl⟩ := mem_bases.mp h
  have hb := hpos b (by simp)
  simp only [extent_append, extent_cons]
  omega

/-! ## What a description rests on -/

/-- Only the tags at the starts of the blocks are looked at. -/
theorem Laid.congr (h : Laid t p a bs) (hback : ∀ s ∈ bases a bs, t'.back s = t.back s)
    (hsize : ∀ s ∈ bases a bs, t'.size s = t.size s) : Laid t' p a bs := by
  induction bs generalizing p a with
  | nil => trivial
  | cons b bs ih =>
      obtain ⟨h₁, h₂, h₃, h₄⟩ := h
      refine ⟨(hback a (by simp [bases])).trans h₁, (hsize a (by simp [bases])).trans h₂, h₃, ?_⟩
      exact ih h₄ (fun s hs => hback s (by simp [bases, hs])) fun s hs => hsize s (by simp [bases, hs])

/-- Blocks in the middle of a row are exchanged for others that fill the same place. Outside, the tags may
change in one place only: the block behind learns what the block before it says of itself now. -/
theorem Laid.edit (h : Laid t p a (xs ++ ms ++ e :: ys)) (hext : extent ms' = extent ms)
    (hmid : Laid t' (backOf p xs) (a + extent xs) (ms' ++ [e]))
    (hpre : ∀ s ∈ bases a xs, t'.back s = t.back s ∧ t'.size s = t.size s)
    (hpost : ∀ s ∈ bases (a + extent (xs ++ ms ++ [e])) ys, t'.back s = t.back s ∧ t'.size s = t.size s) :
    Laid t' p a (xs ++ ms' ++ e :: ys) := by
  have hcut : xs ++ ms ++ e :: ys = xs ++ ((ms ++ [e]) ++ ys) := by simp
  have hcut' : xs ++ ms' ++ e :: ys = xs ++ ((ms' ++ [e]) ++ ys) := by simp
  rw [hcut, laid_append, laid_append] at h
  rw [hcut', laid_append, laid_append]
  have hplace : a + extent xs + extent (ms' ++ [e]) = a + extent (xs ++ ms ++ [e]) := by
    simp only [extent_append, hext]
    omega
  have hplace' : a + extent xs + extent (ms ++ [e]) = a + extent (xs ++ ms ++ [e]) := by
    simp only [extent_append]
    omega
  refine ⟨h.1.congr (fun s hs => (hpre s hs).1) fun s hs => (hpre s hs).2, hmid, ?_⟩
  have hrest := h.2.2
  rw [hplace', backOf_append] at hrest
  rw [hplace, backOf_append]
  exact hrest.congr (fun s hs => (hpost s hs).1) fun s hs => (hpost s hs).2

/-- What the tags say of a block in the middle of a row. -/
theorem Laid.at (h : Laid t p a (xs ++ b :: ys)) :
    t.back (a + extent xs) = backOf p xs ∧ t.size (a + extent xs) = b.tag ∧ (b.free = true → backOf p xs = 0) := by
  have hb := (laid_append.mp h).2
  exact ⟨hb.1, hb.2.1, hb.2.2.1⟩

/-- The back tag behind a block. -/
theorem Laid.at_next (h : Laid t p a (xs ++ b :: e :: ys)) : t.back (a + extent xs + b.size) = b.back :=
  (laid_append.mp h).2.2.2.2.1

/-- No two free blocks lie side by side. -/
theorem Laid.not_adjacent (h : Laid t p a (xs ++ b :: e :: ys)) (hpos : 0 < b.size) :
    ¬ (b.free = true ∧ e.free = true) := by
  rintro ⟨hb, he⟩
  have hzero := (laid_append.mp h).2.2.2.2.2.2.1 he
  rw [Chunk.back, if_pos hb] at hzero
  omega

/-- The block before a block that is told of a free block. -/
theorem exists_of_backOf_ne_zero (h : backOf 0 xs ≠ 0) :
    ∃ zs b, xs = zs ++ [b] ∧ b.free = true ∧ backOf 0 xs = b.size := by
  rcases List.eq_nil_or_concat xs with rfl | ⟨zs, b, rfl⟩
  · exact absurd rfl h
  · rw [List.concat_eq_append, backOf_append, backOf, backOf, Chunk.back] at h ⊢
    split_ifs at h ⊢ with hb
    · exact ⟨zs, b, rfl, hb, rfl⟩
    · exact absurd rfl h

/-! ## Places -/

/-- Blocks of at least `n` bytes start at least `n` bytes apart; the last block of a row may be smaller. -/
theorem bases_apart (hmin : ∀ b ∈ bs, n ≤ b.size) :
    (bases a (bs ++ [e])).Pairwise fun s u => s + n ≤ u := by
  induction bs generalizing a with
  | nil => simp [bases]
  | cons b bs ih =>
      rw [List.cons_append, bases, List.pairwise_cons]
      refine ⟨fun u hu => ?_, ih fun c hc => hmin c (List.mem_cons_of_mem b hc)⟩
      have hle := le_of_mem_bases hu
      have hb := hmin b List.mem_cons_self
      omega

/-- A block that starts before another one ends before it. -/
theorem end_le_of_lt {us vs : List Chunk} {c : Chunk} (h : xs ++ b :: ys = us ++ c :: vs)
    (hlt : extent xs < extent us) : extent xs + b.size ≤ extent us := by
  induction xs generalizing us with
  | nil =>
      cases us with
      | nil => exact absurd hlt (by simp)
      | cons u us =>
          obtain ⟨rfl, -⟩ := List.cons.inj h
          simp
  | cons x xs ih =>
      cases us with
      | nil => exact absurd hlt (by simp)
      | cons u us =>
          obtain ⟨rfl, hrest⟩ := List.cons.inj h
          have hlt' : extent xs < extent us := by simpa using hlt
          have hle := ih hrest hlt'
          simp only [extent_cons]
          omega

/-- Where a block starts tells which block it is. -/
theorem block_unique {us vs : List Chunk} {c : Chunk} (hpos : ∀ d ∈ xs ++ b :: ys, 0 < d.size)
    (h : xs ++ b :: ys = us ++ c :: vs) (hext : extent xs = extent us) : xs = us ∧ b = c ∧ ys = vs := by
  induction xs generalizing us with
  | nil =>
      cases us with
      | nil =>
          obtain ⟨rfl, rfl⟩ := List.cons.inj h
          exact ⟨rfl, rfl, rfl⟩
      | cons u us =>
          obtain ⟨rfl, -⟩ := List.cons.inj h
          have hb := hpos b (by simp)
          simp only [extent_nil, extent_cons] at hext
          omega
  | cons x xs ih =>
      have hx := hpos x (by simp)
      cases us with
      | nil =>
          simp only [extent_nil, extent_cons] at hext
          omega
      | cons u us =>
          obtain ⟨rfl, hrest⟩ := List.cons.inj h
          have hext' : extent xs = extent us := by simpa using hext
          obtain ⟨rfl, rfl, rfl⟩ := ih (fun d hd => hpos d (by simp_all)) hrest hext'
          exact ⟨rfl, rfl, rfl⟩

/-- The block that a place lies in. -/
theorem exists_block (hle : a ≤ s) (hlt : s < a + extent bs) :
    ∃ xs b ys, bs = xs ++ b :: ys ∧ a + extent xs ≤ s ∧ s < a + extent xs + b.size := by
  induction bs generalizing a with
  | nil =>
      rw [extent_nil] at hlt
      omega
  | cons b bs ih =>
      rw [extent_cons] at hlt
      by_cases hb : s < a + b.size
      · exact ⟨[], b, bs, rfl, by simpa using hle, by simpa using hb⟩
      · obtain ⟨xs, c, ys, rfl, h₁, h₂⟩ := ih (a := a + b.size) (by omega) (by omega)
        exact ⟨b :: xs, c, ys, rfl, by rw [extent_cons]; omega, by rw [extent_cons]; omega⟩

/-- A stretch that no block in use touches lies in one free block. -/
theorem gap_of_room (h : Laid t p a bs) (hpos : ∀ b ∈ bs, 0 < b.size) (hn : 0 < n) (hle : a ≤ s)
    (hend : s + n ≤ a + extent bs)
    (hroom : ∀ xs b ys, bs = xs ++ b :: ys → b.free = false →
      a + extent xs + b.size ≤ s ∨ s + n ≤ a + extent xs) :
    ∃ xs b ys, bs = xs ++ b :: ys ∧ b.free = true ∧ a + extent xs ≤ s ∧ s + n ≤ a + extent xs + b.size := by
  have hlt : s < a + extent bs := by omega
  obtain ⟨xs, b, ys, rfl, h₁, h₂⟩ := exists_block hle hlt
  have hfree : b.free = true := by
    by_contra hb
    rcases hroom xs b ys rfl (by simpa using hb) with h | h <;> omega
  refine ⟨xs, b, ys, rfl, hfree, h₁, ?_⟩
  by_contra hlong
  -- the block behind it would be touched too, and that one is in use
  cases ys with
  | nil =>
      simp only [extent_append, extent_cons, extent_nil] at hend
      omega
  | cons e ys =>
      have he : e.free = false := by
        by_contra he
        exact h.not_adjacent (hpos b (by simp)) ⟨hfree, by simpa using he⟩
      have hepos := hpos e (by simp)
      have htouch := hroom (xs ++ [b]) e ys (by simp) he
      simp only [extent_append, extent_cons, extent_nil] at htouch
      omega

end BoundaryTag
