import Mathlib.Data.List.Basic
import Mathlib.Logic.Function.Basic
import Mathlib.Tactic.SplitIfs

/-!
# Lists in the cells of a ring

A list is kept in `cap` cells that go round: it starts in the cell `head`, and `tail` is the first cell behind it.
One cell stays free, so that an empty ring and a full one differ.

* `RingBuf.Holds` — the cells from `head` to `tail` hold a list;
* `Holds.put`, `Holds.get`, `Holds.erase` — what happens to the list at the three ends of it that move;
* `Holds.isEmpty_iff`, `Holds.isFull_iff` — how the two indices show it.
-/

namespace Shaunos.RingBuf

variable {α : Type*} {cells : ℕ → α} {cap i j k n head tail : ℕ} {l : List α} {b : α}

/-- The cell `k` places behind `i`, for `i` and `k` that are not beyond the ring. -/
def place (cap i k : ℕ) : ℕ := if i + k < cap then i + k else i + k - cap

/-- `n` cells from `i` on. -/
def read (cells : ℕ → α) (cap : ℕ) : ℕ → ℕ → List α
  | _, 0 => []
  | i, n + 1 => cells i :: read cells cap (place cap i 1) n

/-! ## Places -/

theorem place_lt (hi : i < cap) (hk : k ≤ cap) : place cap i k < cap := by
  rw [place]
  split_ifs <;> omega

theorem place_zero (hi : i < cap) : place cap i 0 = i := by
  rw [place, if_pos (by omega), Nat.add_zero]

theorem place_place_one (hi : i < cap) (hk : k < cap) : place cap (place cap i k) 1 = place cap i (k + 1) := by
  simp only [place]
  split_ifs <;> omega

theorem place_one_place (hi : i < cap) (hk : k < cap) : place cap (place cap i 1) k = place cap i (k + 1) := by
  simp only [place]
  split_ifs <;> omega

theorem place_inj (hj : j < cap) (hk : k < cap) (h : place cap i j = place cap i k) : j = k := by
  simp only [place] at h
  split_ifs at h <;> omega

theorem place_mod (hi : i < cap) (hk : k ≤ cap) : place cap i k = (i + k) % cap := by
  rw [place]
  split_ifs with h
  · exact (Nat.mod_eq_of_lt h).symm
  · rw [Nat.mod_eq_sub_mod (by omega), Nat.mod_eq_of_lt (by omega)]

/-! ## Cells -/

@[simp] theorem length_read (cells : ℕ → α) (cap i n : ℕ) : (read cells cap i n).length = n := by
  induction n generalizing i with
  | zero => rfl
  | succ n ih => rw [read, List.length_cons, ih]

theorem read_succ (hi : i < cap) (hn : n < cap) :
    read cells cap i (n + 1) = read cells cap i n ++ [cells (place cap i n)] := by
  induction n generalizing i with
  | zero => rw [read, read, read, place_zero hi, List.nil_append]
  | succ n ih =>
      have hstep := ih (i := place cap i 1) (place_lt hi (by omega)) (by omega)
      rw [read, hstep, read, place_one_place hi (by omega), List.cons_append]

theorem read_congr {cells' : ℕ → α} (hi : i < cap) (hn : n ≤ cap)
    (h : ∀ k < n, cells' (place cap i k) = cells (place cap i k)) : read cells' cap i n = read cells cap i n := by
  induction n with
  | zero => rfl
  | succ n ih => rw [read_succ hi hn, read_succ hi hn, h n n.lt_succ_self, ih (by omega) fun k hk => h k (by omega)]

/-- A cell behind those that are read may change. -/
theorem read_update (hi : i < cap) (hnk : n ≤ k) (hk : k < cap) :
    read (Function.update cells (place cap i k) b) cap i n = read cells cap i n := by
  refine read_congr hi (by omega) fun j hj => ?_
  refine Function.update_of_ne (fun heq => ?_) _ _
  have := place_inj (by omega) hk heq
  omega

/-! ## Lists -/

/-- The cells from `head` up to `tail` hold the list `l`. -/
structure Holds (cells : ℕ → α) (cap head tail : ℕ) (l : List α) : Prop where
  head_lt : head < cap
  length_lt : l.length < cap
  tail_eq : tail = place cap head l.length
  read_eq : read cells cap head l.length = l

namespace Holds

theorem nil (h : head < cap) : Holds cells cap head head [] where
  head_lt := h
  length_lt := by rw [List.length_nil]; omega
  tail_eq := (place_zero h).symm
  read_eq := rfl

theorem tail_lt (h : Holds cells cap head tail l) : tail < cap :=
  h.tail_eq ▸ place_lt h.head_lt (Nat.le_of_lt h.length_lt)

theorem isEmpty_iff (h : Holds cells cap head tail l) : head = tail ↔ l = [] := by
  constructor
  · intro heq
    have hlen := place_inj h.length_lt (Nat.zero_lt_of_lt h.head_lt) (k := 0)
      (by rw [← h.tail_eq, place_zero h.head_lt, heq])
    exact List.eq_nil_of_length_eq_zero hlen
  · rintro rfl
    rw [h.tail_eq, List.length_nil, place_zero h.head_lt]

theorem isFull_iff (h : Holds cells cap head tail l) : place cap tail 1 = head ↔ l.length + 1 = cap := by
  have hlt := h.head_lt
  have hlen := h.length_lt
  rw [h.tail_eq, place_place_one hlt hlen, place]
  split_ifs <;> omega

/-- With a free cell besides the one at `tail`, an element may be put behind the list. -/
theorem put (h : Holds cells cap head tail l) (hroom : l.length + 1 < cap) :
    Holds (Function.update cells tail b) cap head (place cap tail 1) (l ++ [b]) where
  head_lt := h.head_lt
  length_lt := by rwa [List.length_append, List.length_singleton]
  tail_eq := by rw [h.tail_eq, place_place_one h.head_lt h.length_lt, List.length_append, List.length_singleton]
  read_eq := by
    rw [List.length_append, List.length_singleton, read_succ h.head_lt h.length_lt, ← h.tail_eq,
      Function.update_self, h.tail_eq, read_update h.head_lt (Nat.le_refl _) h.length_lt, h.read_eq]

/-- The first element of the list is the one at `head`, and the rest begins in the next cell. -/
theorem get (h : Holds cells cap head tail (b :: l)) :
    cells head = b ∧ Holds cells cap (place cap head 1) tail l := by
  have hread := h.read_eq
  rw [List.length_cons, read] at hread
  have hlen : l.length + 1 < cap := h.length_lt
  refine ⟨(List.cons.inj hread).1, ⟨place_lt h.head_lt (by omega), by omega, ?_, (List.cons.inj hread).2⟩⟩
  rw [h.tail_eq, place_one_place h.head_lt (by omega), List.length_cons]

/-- Without its last element the list ends in the cell before `tail`, and the cell at `tail` may change. -/
theorem erase {c : α} (h : Holds cells cap head (place cap tail 1) (l ++ [b])) (htail : tail < cap) :
    Holds (Function.update cells (place cap tail 1) c) cap head tail l := by
  have hlt := h.head_lt
  have hlen := h.length_lt
  have hread := h.read_eq
  have heq := h.tail_eq
  rw [List.length_append, List.length_singleton] at hlen hread heq
  refine ⟨hlt, by omega, ?_, ?_⟩
  · simp only [place] at heq ⊢
    split_ifs at heq ⊢ <;> omega
  · rw [heq, read_update hlt (by omega) hlen]
    rw [read_succ hlt (by omega)] at hread
    exact (List.append_inj' hread rfl).1

end Holds

end Shaunos.RingBuf
