import Mathlib

/-!
# Split reference counters

Objects that are shared, where each share keeps a counter of its own. A new object has one share, which
counts 1. To copy a share is to hand out its counter as it was and to count one more in the share itself. The
object goes away when a share that counts 1 is dropped.

* `SplitCount` — of the shares of an object, one counts 1;
* `SplitCount.alloc`, `SplitCount.copy`, `SplitCount.drop` — one rule for each operation. To drop a share
  that counts 1 is right only for the last one;
* `SplitCount.mem_iff` — the objects are those that have shares.
-/

namespace Shaunos

variable {κ : Type*} [DecidableEq κ]

/-- A share of an object, with its counter. -/
abbrev Share (κ : Type*) := κ × BitVec 32

/-- The objects, once a share is dropped. -/
def dropShare (C : Finset κ) (x : Share κ) : Finset κ := if x.2 = 1 then C.erase x.1 else C

/-- Each share that counts 1 is the last one when the first list is dropped, in order. -/
def LastOk : (l others : List (Share κ)) → Prop
  | [], _ => True
  | x :: l, others => (x.2 = 1 → ∀ y ∈ l ++ others, y.1 ≠ x.1) ∧ LastOk l others

instance LastOk.decidable : ∀ l others : List (Share κ), Decidable (LastOk l others)
  | [], _ => isTrue trivial
  | x :: l, others =>
      have := LastOk.decidable l others
      inferInstanceAs (Decidable ((x.2 = 1 → ∀ y ∈ l ++ others, y.1 ≠ x.1) ∧ LastOk l others))

section

variable {l o o' : List (Share κ)} {x : Share κ}

omit [DecidableEq κ] in
theorem LastOk.others (h : LastOk l o) (hx : x ∈ l) (hone : x.2 = 1) : ∀ y ∈ o, y.1 ≠ x.1 := by
  induction l with
  | nil => cases hx
  | cons z l ih =>
      rcases List.mem_cons.mp hx with rfl | hx
      · exact fun y hy => h.1 hone y (List.mem_append_right l hy)
      · exact ih h.2 hx

omit [DecidableEq κ] in
/-- Shares of other objects do not matter. -/
theorem LastOk.congr (h : LastOk l o) (ho : ∀ y ∈ o', y ∈ o ∨ ∀ x ∈ l, y.1 ≠ x.1) : LastOk l o' := by
  induction l with
  | nil => trivial
  | cons x l ih =>
      refine ⟨?_, ih h.2 fun y hy => (ho y hy).imp id fun hne z hz => hne z (List.mem_cons_of_mem x hz)⟩
      intro hone y hy
      rcases List.mem_append.mp hy with hy | hy
      · exact h.1 hone y (List.mem_append_left o hy)
      · rcases ho y hy with hy | hne
        · exact h.1 hone y (List.mem_append_right l hy)
        · exact hne x List.mem_cons_self

omit [DecidableEq κ] in
theorem lastOk_congr (ho : ∀ y, y ∈ o ↔ y ∈ o') : LastOk l o ↔ LastOk l o' :=
  ⟨fun h => h.congr fun y hy => .inl ((ho y).mpr hy), fun h => h.congr fun y hy => .inl ((ho y).mp hy)⟩

omit [DecidableEq κ] in
theorem lastOk_of_ne_one (h : ∀ x ∈ l, x.2 ≠ 1) : LastOk l o := by
  induction l with
  | nil => trivial
  | cons x l ih =>
      exact ⟨fun hone => absurd hone (h x List.mem_cons_self), ih fun y hy => h y (List.mem_cons_of_mem x hy)⟩

end

/-- The counters of all shares of the objects. -/
structure SplitCount (C : Finset κ) (l : List (Share κ)) : Prop where
  one : ∀ b ∈ C, l.count (b, 1) = 1
  dead : ∀ b ∉ C, ∀ x ∈ l, x.1 ≠ b
  pos : ∀ x ∈ l, x.2 ≠ 0

namespace SplitCount

variable {C : Finset κ} {l l' : List (Share κ)} {x y : Share κ} {b : κ}

theorem start : SplitCount (∅ : Finset κ) [] where
  one b hb := absurd hb (Finset.notMem_empty b)
  dead _ _ _ hx := absurd hx List.not_mem_nil
  pos _ hx := absurd hx List.not_mem_nil

/-- The order of the shares does not matter. -/
theorem perm (h : SplitCount C l) (hl : l.Perm l') : SplitCount C l' where
  one b hb := (hl.count_eq (b, 1)).symm.trans (h.one b hb)
  dead b hb x hx := h.dead b hb x (hl.mem_iff.mpr hx)
  pos x hx := h.pos x (hl.mem_iff.mpr hx)

/-- The objects are those that have shares. -/
theorem mem_iff (h : SplitCount C l) : b ∈ C ↔ ∃ x ∈ l, x.1 = b := by
  constructor
  · intro hb
    have hcount : 0 < l.count (b, 1) := by
      rw [h.one b hb]
      exact one_pos
    exact ⟨(b, 1), List.count_pos_iff.mp hcount, rfl⟩
  · rintro ⟨x, hx, rfl⟩
    by_contra hb
    exact h.dead x.1 hb x hx rfl

theorem alloc (h : SplitCount C l) (hb : b ∉ C) : SplitCount (insert b C) ((b, 1) :: l) where
  one b' hb' := by
    rcases Finset.mem_insert.mp hb' with rfl | hb'
    · have hnot : (b', (1 : BitVec 32)) ∉ l := fun hmem => h.dead b' hb _ hmem rfl
      rw [List.count_cons_self, List.count_eq_zero.mpr hnot]
    · have hne : (b, (1 : BitVec 32)) ≠ (b', 1) := by
        intro he
        obtain rfl := (Prod.mk.inj he).1
        exact hb hb'
      rw [List.count_cons_of_ne hne, h.one b' hb']
  dead b' hb' x hx := by
    have ⟨hne, hb'⟩ := not_or.mp fun hor => hb' (Finset.mem_insert.mpr hor)
    rcases List.mem_cons.mp hx with rfl | hx
    · exact fun he => hne he.symm
    · exact h.dead b' hb' x hx
  pos x hx := by
    rcases List.mem_cons.mp hx with rfl | hx
    · exact (by decide : (1 : BitVec 32) ≠ 0)
    · exact h.pos x hx

theorem copy (h : SplitCount C (x :: l)) (hwrap : x.2 + 1 ≠ 0) :
    SplitCount C ((x.1, x.2 + 1) :: x :: l) where
  one b hb := by
    have hne : (x.1, x.2 + 1) ≠ (b, 1) := by
      intro he
      have hone : x.2 + 1 = 1 := (Prod.mk.inj he).2
      have hzero : x.2 = 0 := by simpa using hone
      exact h.pos x List.mem_cons_self hzero
    rw [List.count_cons_of_ne hne, h.one b hb]
  dead b hb y hy := by
    rcases List.mem_cons.mp hy with rfl | hy
    · exact h.dead b hb x List.mem_cons_self
    · exact h.dead b hb y hy
  pos y hy := by
    rcases List.mem_cons.mp hy with rfl | hy
    · exact hwrap
    · exact h.pos y hy

theorem drop (h : SplitCount C (x :: l)) (hok : x.2 = 1 → ∀ y ∈ l, y.1 ≠ x.1) :
    SplitCount (dropShare C x) l := by
  rw [dropShare]
  split_ifs with hone
  · refine ⟨?_, ?_, fun y hy => h.pos y (List.mem_cons_of_mem x hy)⟩
    · intro b hb
      have ⟨hne, hb⟩ := Finset.mem_erase.mp hb
      have hx : x ≠ (b, 1) := by
        rintro rfl
        exact hne rfl
      rw [← h.one b hb, List.count_cons_of_ne hx]
    · intro b hb y hy
      by_cases hbx : b = x.1
      · rw [hbx]
        exact hok hone y hy
      · exact h.dead b (fun hbC => hb (Finset.mem_erase.mpr ⟨hbx, hbC⟩)) y (List.mem_cons_of_mem x hy)
  · refine ⟨?_, fun b hb y hy => h.dead b hb y (List.mem_cons_of_mem x hy),
      fun y hy => h.pos y (List.mem_cons_of_mem x hy)⟩
    intro b hb
    have hx : x ≠ (b, 1) := by
      rintro rfl
      exact hone rfl
    rw [← h.one b hb, List.count_cons_of_ne hx]

end SplitCount

end Shaunos
