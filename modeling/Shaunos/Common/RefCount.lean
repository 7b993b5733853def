import Mathlib

/-!
# Reference-counted objects

A heap of objects with a 32-bit reference counter each. `open_` hands out a new object with one
reference, `incr` adds a reference, and `drop` takes one away and frees the object when the counter
gets to 0. Dropping a reference to an object that is not allocated is a fault.

* `Accounts` — the counters are what a reference function says, and the objects that are allocated
  are the ones that are referenced;
* `Accounts.open_`, `Accounts.incr`, `Accounts.drop` — one rule for each operation;
* `Accounts.incrAll`, `Accounts.dropAll` — the rules for loops over a list of references.
-/

namespace Shaunos.RefCount

variable {α : Type*} [DecidableEq α]

/-- The counters and the allocation state of all objects. -/
structure Heap (α : Type*) where
  count : α → ℕ
  live : α → Bool
  /-- A reference to an object that is not allocated was dropped. -/
  fault : Bool

/-- A new object with one reference. -/
def Heap.open_ (h : Heap α) (p : α) : Heap α :=
  { h with count := Function.update h.count p 1, live := Function.update h.live p true }

/-- `++` on a 32-bit counter. -/
def Heap.incr (h : Heap α) (p : α) : Heap α :=
  { h with count := Function.update h.count p ((h.count p + 1) % 2 ^ 32) }

/-- `--` on a 32-bit counter. -/
def Heap.decr (h : Heap α) (p : α) : Heap α :=
  { h with
    count := Function.update h.count p ((h.count p + (2 ^ 32 - 1)) % 2 ^ 32)
    fault := h.fault || !h.live p }

/-- The memory of an object is given back. -/
def Heap.free (h : Heap α) (p : α) : Heap α :=
  { h with live := Function.update h.live p false }

/-- Take a reference away, and free the object with the last one. -/
def Heap.drop (h : Heap α) (p : α) : Heap α :=
  if (h.decr p).count p = 0 then (h.decr p).free p else h.decr p

/-! ## What the operations do to the counters -/

section

variable (h : Heap α) (p q : α) (l : List α)

theorem count_open (hqp : q ≠ p) : (h.open_ p).count q = h.count q :=
  Function.update_of_ne hqp ..

theorem count_incr :
    (h.incr p).count q ≡ h.count q + (if p = q then 1 else 0) [MOD 2 ^ 32] := by
  by_cases hqp : q = p
  · subst hqp
    simp only [Heap.incr, Function.update_self, if_true]
    exact Nat.mod_modEq _ _
  · simp only [Heap.incr, Function.update_of_ne hqp, if_neg (Ne.symm hqp), add_zero]
    exact Nat.ModEq.refl _

theorem count_drop :
    (h.drop p).count q + (if p = q then 1 else 0) ≡ h.count q [MOD 2 ^ 32] := by
  have hcount : (h.drop p).count q = (h.decr p).count q := by
    unfold Heap.drop
    split <;> rfl
  rw [hcount]
  by_cases hqp : q = p
  · subst hqp
    simp only [Heap.decr, Function.update_self, if_true, Nat.ModEq]
    omega
  · simp only [Heap.decr, Function.update_of_ne hqp, if_neg (Ne.symm hqp), add_zero]
    exact Nat.ModEq.refl _

theorem count_incrAll : (l.foldl Heap.incr h).count q ≡ h.count q + l.count q [MOD 2 ^ 32] := by
  induction l generalizing h with
  | nil => exact Nat.ModEq.refl _
  | cons p l ih =>
      calc ((p :: l).foldl Heap.incr h).count q
          ≡ (h.incr p).count q + l.count q [MOD 2 ^ 32] := ih (h.incr p)
        _ ≡ h.count q + (if p = q then 1 else 0) + l.count q [MOD 2 ^ 32] :=
            (count_incr h p q).add_right _
        _ = h.count q + (p :: l).count q := by
            rw [List.count_cons]
            simp only [beq_iff_eq]
            omega

theorem count_dropAll : (l.foldl Heap.drop h).count q + l.count q ≡ h.count q [MOD 2 ^ 32] := by
  induction l generalizing h with
  | nil => exact Nat.ModEq.refl _
  | cons p l ih =>
      calc ((p :: l).foldl Heap.drop h).count q + (p :: l).count q
          = (l.foldl Heap.drop (h.drop p)).count q + l.count q + (if p = q then 1 else 0) := by
            rw [List.count_cons, List.foldl_cons]
            simp only [beq_iff_eq]
            omega
        _ ≡ (h.drop p).count q + (if p = q then 1 else 0) [MOD 2 ^ 32] := (ih (h.drop p)).add_right _
        _ ≡ h.count q [MOD 2 ^ 32] := count_drop h p q

end

/-! ## Counters that agree with the references -/

/-- The heap is what the number of references to each object says. -/
structure Accounts (h : Heap α) (R : α → ℕ) : Prop where
  live : ∀ p, h.live p = true ↔ 0 < R p
  count : ∀ p, 0 < R p → h.count p = R p
  fault : h.fault = false

namespace Accounts

variable {h : Heap α} {R : α → ℕ} {p : α}

omit [DecidableEq α] in
theorem congr {R' : α → ℕ} (hacc : Accounts h R) (heq : ∀ p, R' p = R p) : Accounts h R' :=
  (funext heq : R' = R) ▸ hacc

omit [DecidableEq α] in
/-- An object that is not allocated has no references. -/
theorem eq_zero (hacc : Accounts h R) (hp : h.live p = false) : R p = 0 := by
  by_contra hne
  have hlive := (hacc.live p).mpr (Nat.pos_of_ne_zero hne)
  rw [hp] at hlive
  exact absurd hlive (by simp)

theorem open_ (hacc : Accounts h R) (hp : h.live p = false) :
    Accounts (h.open_ p) fun q => R q + if q = p then 1 else 0 := by
  have hzero := hacc.eq_zero hp
  refine ⟨fun q => ?_, fun q hq => ?_, hacc.fault⟩
  · by_cases hqp : q = p
    · simp [Heap.open_, hqp]
    · simp [Heap.open_, hqp, hacc.live q]
  · by_cases hqp : q = p
    · simp [Heap.open_, hqp, hzero]
    · simp only [hqp, if_false, add_zero] at hq
      simp [Heap.open_, hqp, hacc.count q hq]

theorem incr (hacc : Accounts h R) (hp : 0 < R p) (hlt : R p + 1 < 2 ^ 32) :
    Accounts (h.incr p) fun q => R q + if q = p then 1 else 0 := by
  have hcount := hacc.count p hp
  refine ⟨fun q => ?_, fun q hq => ?_, hacc.fault⟩
  · by_cases hqp : q = p
    · subst hqp
      simp [Heap.incr, (hacc.live q).mpr hp]
    · simp [Heap.incr, hqp, hacc.live q]
  · by_cases hqp : q = p
    · subst hqp
      simp only [Heap.incr, Function.update_self, hcount, if_true]
      exact Nat.mod_eq_of_lt hlt
    · simp only [hqp, if_false, add_zero] at hq
      simp [Heap.incr, hqp, hacc.count q hq]

/-- The reference that is dropped is one of those counted. -/
theorem drop (hacc : Accounts h fun q => R q + if q = p then 1 else 0) (hlt : R p + 1 < 2 ^ 32) :
    Accounts (h.drop p) R := by
  have hcount : h.count p = R p + 1 := by simpa using hacc.count p (by simp)
  have hlive : h.live p = true := (hacc.live p).mpr (by simp)
  have hdecr : (h.decr p).count p = R p := by
    simp only [Heap.decr, Function.update_self, hcount]
    omega
  have hother : ∀ q, q ≠ p → ((h.decr p).live q = true ↔ 0 < R q) ∧
      (0 < R q → (h.decr p).count q = R q) := by
    intro q hqp
    have hq := hacc.live q
    have hc := hacc.count q
    simp only [hqp, if_false, add_zero] at hq hc
    exact ⟨hq, fun h0 => by simp [Heap.decr, hqp, hc h0]⟩
  have hfault : (h.decr p).fault = false := by simp [Heap.decr, hacc.fault, hlive]
  unfold Heap.drop
  rw [hdecr]
  by_cases hzero : R p = 0
  · rw [if_pos hzero]
    refine ⟨fun q => ?_, fun q hq => ?_, hfault⟩
    · by_cases hqp : q = p
      · simp [Heap.free, hqp, hzero]
      · simpa [Heap.free, hqp] using (hother q hqp).1
    · have hqp : q ≠ p := by
        rintro rfl
        omega
      exact (hother q hqp).2 hq
  · rw [if_neg hzero]
    refine ⟨fun q => ?_, fun q hq => ?_, hfault⟩
    · by_cases hqp : q = p
      · subst hqp
        exact ⟨fun _ => Nat.pos_of_ne_zero hzero, fun _ => hlive⟩
      · exact (hother q hqp).1
    · by_cases hqp : q = p
      · exact hqp ▸ hdecr
      · exact (hother q hqp).2 hq

/-- The counter of an object that is not allocated does not matter. -/
theorem incr_dead (hacc : Accounts h R) (hp : R p = 0) : Accounts (h.incr p) R := by
  refine ⟨hacc.live, fun q hq => ?_, hacc.fault⟩
  have hqp : q ≠ p := by
    rintro rfl
    omega
  simp only [Heap.incr, Function.update_of_ne hqp]
  exact hacc.count q hq

/-- A loop that adds one reference for each entry of a list. Entries that are no object do not
matter. -/
theorem incrAll (l : List α) (hacc : Accounts h R) (hlt : ∀ p, R p + l.length < 2 ^ 32) :
    Accounts (l.foldl Heap.incr h) fun q => if R q = 0 then 0 else R q + l.count q := by
  induction l generalizing h R with
  | nil => exact hacc.congr fun q => by by_cases hq : R q = 0 <;> simp [hq]
  | cons p l ih =>
      have hlen : ∀ q, R q + l.length + 1 < 2 ^ 32 := fun q => by
        have := hlt q
        simp only [List.length_cons] at this
        omega
      by_cases hp : R p = 0
      · refine (ih (hacc.incr_dead hp) fun q => by have := hlen q; omega).congr fun q => ?_
        by_cases hqp : q = p
        · simp [hqp, hp]
        · simp [Ne.symm hqp]
      · have hstep := hacc.incr (Nat.pos_of_ne_zero hp) (by have := hlen p; omega)
        refine (ih hstep fun q => by have := hlen q; split <;> omega).congr fun q => ?_
        by_cases hqp : q = p
        · simp [hqp, hp]
          omega
        · simp [hqp, Ne.symm hqp]

/-- A loop that drops one reference for each entry of a list. -/
theorem dropAll (l : List α) (hacc : Accounts h fun q => R q + l.count q)
    (hlt : ∀ p, R p + l.length < 2 ^ 32) : Accounts (l.foldl Heap.drop h) R := by
  induction l generalizing h with
  | nil => simpa using hacc
  | cons p l ih =>
      have hlen : ∀ q, R q + l.count q + 1 < 2 ^ 32 := fun q => by
        have := hlt q
        have := List.count_le_length (l := l) (a := q)
        simp only [List.length_cons] at *
        omega
      refine ih (Accounts.drop (R := fun q => R q + l.count q) (hacc.congr fun q => ?_) (hlen p))
        fun q => by have := hlt q; simp only [List.length_cons] at this; omega
      rw [List.count_cons]
      by_cases hqp : q = p
      · simp [hqp]
        omega
      · simp [hqp, Ne.symm hqp]

end Accounts

end Shaunos.RefCount
