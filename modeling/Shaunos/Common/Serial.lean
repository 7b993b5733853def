import Mathlib

/-!
# Serial numbers

Serial numbers are words of `w` bits that wrap around. A list is numbered from a serial number on, and
a window is a number of serial numbers from one on.

* `numbered` — the items of a list with their serial numbers;
* `slice_eq_filter_iff` — a slice of a numbered list is the part with a property if and only if the
  property holds between the ends of the slice and nowhere else;
* `toInt_swap` — the signed distance of two serial numbers, for words of 32 bits.
-/

namespace Shaunos

variable {w : ℕ} {α β : Type*}

/-- The items of a list with their serial numbers from `n` on. -/
def numbered (n : BitVec w) (l : List α) : List (BitVec w × α) :=
  l.zipIdx.map fun x => (n + BitVec.ofNat w x.2, x.1)

/-- The items of a list from place `a` up to place `b`. -/
def slice (a b : ℕ) (l : List α) : List α := (l.take b).drop a

/-- `n` is one of the `size` serial numbers from `r` on. -/
def InWindow (r size n : BitVec w) : Prop := (n - r).toNat < size.toNat

instance (r size n : BitVec w) : Decidable (InWindow r size n) :=
  inferInstanceAs (Decidable (_ < _))

section

variable {n r size : BitVec w} {l : List α} {a b i : ℕ}

@[simp] theorem numbered_nil : numbered n ([] : List α) = [] := rfl

@[simp] theorem length_numbered : (numbered n l).length = l.length := by
  simp [numbered]

@[simp] theorem map_snd_numbered : (numbered n l).map Prod.snd = l := by
  simp [numbered, List.map_map, Function.comp_def]

theorem getElem_numbered (hi : i < (numbered n l).length) :
    (numbered n l)[i] = (n + BitVec.ofNat w i, l.get ⟨i, by simpa using hi⟩) := by
  simp [numbered]

@[simp] theorem length_slice : (slice a b l).length = min b l.length - a := by
  simp [slice]

@[simp] theorem map_slice (f : α → β) : (slice a b l).map f = slice a b (l.map f) := by
  simp [slice]

theorem slice_all (h : l.length ≤ b) : slice 0 b l = l := by
  simp [slice, List.take_of_length_le h]

theorem slice_empty (h : min b l.length ≤ a) : slice a b l = [] := by
  rw [← List.length_eq_zero_iff, length_slice]
  omega

theorem drop_slice (c : ℕ) : (slice a b l).drop c = slice (a + c) b l := by
  rw [slice, slice, List.drop_drop]

theorem take_slice (c : ℕ) : (slice a b l).take c = slice a (min (a + c) b) l := by
  rw [slice, slice, List.take_drop, List.take_take]

theorem take_append_slice (h : a ≤ b) : l.take a ++ slice a b l = l.take b := by
  rw [slice, ← Nat.min_eq_left h, ← List.take_take, Nat.min_eq_left h, List.take_append_drop]

theorem mem_slice_iff {x : α} :
    x ∈ slice a b l ↔ ∃ i, ∃ hi : i < l.length, a ≤ i ∧ i < b ∧ l[i] = x := by
  rw [slice, List.mem_iff_getElem]
  constructor
  · rintro ⟨i, hi, rfl⟩
    simp only [List.length_drop, List.length_take] at hi
    exact ⟨a + i, by omega, by omega, by omega, by simp⟩
  · rintro ⟨i, hi, hai, hib, rfl⟩
    refine ⟨i - a, ?_, ?_⟩
    · simp only [List.length_drop, List.length_take]
      omega
    · simp [Nat.add_sub_cancel' hai]

/-- The serial number of an item, seen from `r`. -/
theorem toNat_offset (n r : BitVec w) (i : ℕ) :
    (n + BitVec.ofNat w i - r).toNat = ((n - r).toNat + i) % 2 ^ w := by
  have h : n + BitVec.ofNat w i - r = (n - r) + BitVec.ofNat w i := by
    rw [BitVec.sub_eq_add_neg, BitVec.sub_eq_add_neg, BitVec.add_assoc, BitVec.add_assoc,
      BitVec.add_comm (-r)]
  rw [h, BitVec.toNat_add, BitVec.toNat_ofNat, Nat.add_mod_mod]

/-- No two items of a list have the same number, up to `2 ^ w` of them. -/
theorem numbered_inj {j : ℕ} (hl : l.length ≤ 2 ^ w) (hi : i < (numbered n l).length)
    (hj : j < (numbered n l).length) (h : (numbered n l)[i] = (numbered n l)[j]) : i = j := by
  rw [getElem_numbered, getElem_numbered, Prod.mk.injEq] at h
  have hn : BitVec.ofNat w i = BitVec.ofNat w j := by simpa using h.1
  have ht := congrArg BitVec.toNat hn
  rw [length_numbered] at hi hj
  rwa [BitVec.toNat_ofNat, BitVec.toNat_ofNat, Nat.mod_eq_of_lt (by omega),
    Nat.mod_eq_of_lt (by omega)] at ht

/-- A slice of a numbered list has all items with a property and no others if and only if the property
holds of the numbers between the ends of the slice and of no others. -/
theorem slice_eq_filter_iff (p : BitVec w → Bool) (hl : l.length ≤ 2 ^ w) :
    slice a b (numbered n l) = (numbered n l).filter (fun x => p x.1) ↔
      ∀ i < l.length, (p (n + BitVec.ofNat w i) = true ↔ a ≤ i ∧ i < b) := by
  constructor
  · intro h i hi
    have hi' : i < (numbered n l).length := by simpa using hi
    have hp : (numbered n l)[i] ∈ (numbered n l).filter (fun x => p x.1) ↔
        p (n + BitVec.ofNat w i) = true := by
      rw [List.mem_filter, getElem_numbered]
      exact ⟨fun hm => hm.2, fun hm => ⟨getElem_numbered hi' ▸ List.getElem_mem hi', hm⟩⟩
    rw [← hp, ← h, mem_slice_iff]
    constructor
    · rintro ⟨j, hj, haj, hjb, he⟩
      rw [← numbered_inj hl hj hi' he]
      exact ⟨haj, hjb⟩
    · rintro ⟨hai, hib⟩
      exact ⟨i, hi', hai, hib, rfl⟩
  · intro h
    -- cut the list at the ends of the slice
    have hcut : numbered n l = (numbered n l).take (min a b) ++
        (slice (min a b) b (numbered n l) ++ (numbered n l).drop b) := by
      have hb := List.take_append_drop b (numbered n l)
      have ha := List.take_append_drop (min a b) ((numbered n l).take b)
      rw [List.take_take, Nat.min_eq_left (Nat.min_le_right a b)] at ha
      rw [slice, ← List.append_assoc, ha, hb]
    have hat : ∀ i, (hi : i < (numbered n l).length) →
        (p (numbered n l)[i].1 = true ↔ a ≤ i ∧ i < b) := by
      intro i hi
      rw [getElem_numbered]
      exact h i (by simpa using hi)
    have hleft : ((numbered n l).take (min a b)).filter (fun x => p x.1) = [] := by
      rw [List.filter_eq_nil_iff]
      intro x hx
      obtain ⟨i, hi, rfl⟩ := List.mem_iff_getElem.mp hx
      rw [List.getElem_take, hat]
      rw [List.length_take] at hi
      omega
    have hright : ((numbered n l).drop b).filter (fun x => p x.1) = [] := by
      rw [List.filter_eq_nil_iff]
      intro x hx
      obtain ⟨i, hi, rfl⟩ := List.mem_iff_getElem.mp hx
      rw [List.getElem_drop, hat]
      omega
    have hmid : (slice (min a b) b (numbered n l)).filter (fun x => p x.1) =
        slice a b (numbered n l) := by
      rcases Nat.le_total a b with hab | hab
      · rw [Nat.min_eq_left hab, List.filter_eq_self]
        intro x hx
        obtain ⟨i, hi, hai, hib, rfl⟩ := mem_slice_iff.mp hx
        exact (hat i hi).mpr ⟨hai, hib⟩
      · rw [Nat.min_eq_right hab, slice_empty (Nat.min_le_left _ _),
          slice_empty (Nat.le_trans (Nat.min_le_left _ _) hab), List.filter_nil]
    conv_rhs => rw [hcut]
    rw [List.filter_append, List.filter_append, hleft, hmid, hright, List.nil_append,
      List.append_nil]

@[simp] theorem slice_eq_nil_iff : slice a b l = [] ↔ min b l.length ≤ a := by
  rw [← List.length_eq_zero_iff, length_slice]
  omega

end

/-- Two intervals have the same places below `n`. -/
theorem interval_iff {n a b c d : ℕ} :
    (∀ i < n, (a ≤ i ∧ i < b ↔ c ≤ i ∧ i < d)) ↔
      (min b n ≤ a ∧ min d n ≤ c) ∨ (a = c ∧ min b n = min d n) := by
  constructor
  · intro h
    rcases Nat.lt_or_ge a (min b n) with hab | hab
    · -- both ends of the first interval are in the second, and the other way round
      have ha := (h a (by omega)).mp ⟨Nat.le_refl a, by omega⟩
      have hb := (h (min b n - 1) (by omega)).mp ⟨by omega, by omega⟩
      have hc := (h c (by omega)).mpr ⟨Nat.le_refl c, by omega⟩
      have hd := (h (min d n - 1) (by omega)).mpr ⟨by omega, by omega⟩
      omega
    · refine .inl ⟨hab, ?_⟩
      by_contra hcd
      have hc := (h c (by omega)).mpr ⟨Nat.le_refl c, by omega⟩
      omega
  · intro h i hi
    omega

/-! ## Signed distances -/

/-- The signed distance of two serial numbers, from the distance the other way. -/
theorem toInt_swap (n r : BitVec 32) : (r - n).toInt =
    if 2 ^ 31 < (n - r).toNat then 2 ^ 32 - ((n - r).toNat : ℤ) else -((n - r).toNat : ℤ) := by
  have hn := n.isLt
  have hr := r.isLt
  rw [BitVec.toInt_eq_toNat_cond, BitVec.toNat_sub, BitVec.toNat_sub]
  split <;> split <;> omega

/-- The signed distance of two places that are less than half of all words apart. -/
theorem toInt_places (n : BitVec 32) {x y : ℕ} (hxy : x < y + 2 ^ 31) (hyx : y ≤ x + 2 ^ 31) :
    (n + BitVec.ofNat 32 x - (n + BitVec.ofNat 32 y)).toInt = x - y := by
  rw [add_sub_add_left_eq_sub, BitVec.toInt_sub, BitVec.toInt_ofNat', BitVec.toInt_ofNat',
    ← Int.sub_bmod]
  exact Int.bmod_eq_of_le (by omega) (by omega)

/-- The signed distance of two words, from those to a third one. -/
theorem toInt_sub_sub {a b : BitVec 32} (c : BitVec 32) {x y : ℤ} (hx : (a - c).toInt = x)
    (hy : (b - c).toInt = y) (hlo : -2 ^ 31 ≤ x - y) (hhi : x - y < 2 ^ 31) : (a - b).toInt = x - y := by
  have hsub : a - b = (a - c) - (b - c) := by
    rw [sub_sub_sub_cancel_right]
  rw [hsub, BitVec.toInt_sub, hx, hy]
  exact Int.bmod_eq_of_le (by omega) (by omega)

/-- The signed distance behind an addition. -/
theorem toInt_add_sub_of {a b c : BitVec 32} {x y : ℤ} (hx : (a - c).toInt = x) (hy : b.toInt = y)
    (hlo : -2 ^ 31 ≤ x + y) (hhi : x + y < 2 ^ 31) : (a + b - c).toInt = x + y := by
  have hadd : a + b - c = (a - c) + b := by
    rw [add_sub_right_comm]
  rw [hadd, BitVec.toInt_add, hx, hy]
  exact Int.bmod_eq_of_le (by omega) (by omega)

/-- A word that is some places further, seen from where it was. -/
theorem toInt_add_sub (c : BitVec 32) {x : ℤ} (hlo : -2 ^ 31 ≤ x) (hhi : x < 2 ^ 31) :
    (c + BitVec.ofInt 32 x - c).toInt = x := by
  rw [add_sub_cancel_left, BitVec.toInt_ofInt]
  exact Int.bmod_eq_of_le (by omega) (by omega)

/-- The value of a word that is read as signed. -/
theorem toInt_ofInt_spec (x : ℤ) : ∃ q : ℤ, (BitVec.ofInt 32 x).toInt = x + 2 ^ 32 * q ∧
    -2 ^ 31 ≤ (BitVec.ofInt 32 x).toInt ∧ (BitVec.ofInt 32 x).toInt < 2 ^ 31 := by
  have h₁ := BitVec.le_toInt (BitVec.ofInt 32 x)
  have h₂ := BitVec.toInt_lt (x := BitVec.ofInt 32 x)
  refine ⟨-Int.bdiv x (2 ^ 32), ?_, by omega, by omega⟩
  rw [BitVec.toInt_ofInt, Int.bmod_eq_self_sub_mul_bdiv]
  omega

end Shaunos
