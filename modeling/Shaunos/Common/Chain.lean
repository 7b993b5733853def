import Mathlib.Data.List.Basic
import Mathlib.Data.List.Nodup
import Mathlib.Logic.Function.Basic

/-!
# Chains

A chain goes from one item to the next along links, up to an item without one. The first link is that of a
head, which is not in the chain itself.

* `Chain.nodup` — a chain that ends does not come back to an item;
* `walkLast_eq`, `walkTo_eq` — the loops that look for the last item and for the item before another one;
* `Chain.snoc`, `Chain.remove` — what a link that is changed there makes of the chain.
-/

namespace Shaunos

variable {ι : Type*}

/-- From `p` on, the links go over the items of a list and end. -/
def Chain (next : ι → Option ι) : (p : Option ι) → List ι → Prop
  | p, [] => p = none
  | p, i :: l => p = some i ∧ Chain next (next i) l

/-- Walk from `i` to the last item. A walk without an end goes on for ever. -/
def walkLast (next : ι → Option ι) : ℕ → (i : ι) → Option ι
  | 0, _ => none
  | fuel + 1, i =>
      match next i with
      | none => some i
      | some j => walkLast next fuel j

/-- Walk from `i` to the item before `target`, if there is one. -/
def walkTo [DecidableEq ι] (next : ι → Option ι) (target : ι) : ℕ → (i : ι) → Option (Option ι)
  | 0, _ => none
  | fuel + 1, i =>
      match next i with
      | none => some none
      | some j => if j = target then some (some i) else walkTo next target fuel j

section

variable {next next' : ι → Option ι} {p : Option ι} {l l' a b : List ι} {h i t new : ι} {fuel : ℕ}

@[simp] theorem chain_nil : Chain next p [] ↔ p = none := Iff.rfl

@[simp] theorem chain_cons : Chain next p (i :: l) ↔ p = some i ∧ Chain next (next i) l := Iff.rfl

/-- A chain does not depend on other links. -/
theorem Chain.congr (hc : Chain next p l) (hn : ∀ i ∈ l, next' i = next i) : Chain next' p l := by
  induction l generalizing p with
  | nil => exact hc
  | cons i l ih =>
      refine ⟨hc.1, ?_⟩
      rw [hn i List.mem_cons_self]
      exact ih hc.2 fun j hj => hn j (List.mem_cons_of_mem i hj)

/-- The same for the head. -/
theorem Chain.congr_head (hc : Chain next (next h) l) (hn : ∀ i ∈ h :: l, next' i = next i) :
    Chain next' (next' h) l := by
  rw [hn h List.mem_cons_self]
  exact hc.congr fun i hi => hn i (List.mem_cons_of_mem h hi)

theorem Chain.unique (hc : Chain next p l) (hc' : Chain next p l') : l = l' := by
  induction l generalizing p l' with
  | nil =>
      obtain rfl : p = none := hc
      cases l' with
      | nil => rfl
      | cons j l' => cases hc'.1
  | cons i l ih =>
      obtain rfl := hc.1
      cases l' with
      | nil => cases hc'
      | cons j l' =>
          obtain rfl := Option.some.inj hc'.1
          rw [ih hc.2 hc'.2]

/-- The part of a chain behind one of its items. -/
theorem Chain.behind (hc : Chain next p (a ++ i :: b)) : Chain next (next i) b := by
  induction a generalizing p with
  | nil => exact hc.2
  | cons j a ih => exact ih hc.2

theorem Chain.nodup (hc : Chain next p l) : l.Nodup := by
  induction l generalizing p with
  | nil => exact List.nodup_nil
  | cons i l ih =>
      refine List.nodup_cons.mpr ⟨fun hi => ?_, ih hc.2⟩
      have ⟨a, b, hab⟩ := List.append_of_mem hi
      have hb : Chain next (next i) b := Chain.behind (hab ▸ hc.2)
      have heq : l = b := hc.2.unique hb
      have hlen := congrArg List.length hab
      rw [heq, List.length_append, List.length_cons] at hlen
      omega

theorem walkLast_eq (hc : Chain next (next h) l) (hfuel : l.length < fuel) :
    walkLast next fuel h = some (l.getLastD h) := by
  induction l generalizing h fuel with
  | nil =>
      cases fuel with
      | zero => exact absurd hfuel (Nat.not_lt_zero _)
      | succ fuel =>
          have hnone : next h = none := hc
          rw [walkLast, hnone]
          rfl
  | cons i l ih =>
      cases fuel with
      | zero => exact absurd hfuel (Nat.not_lt_zero _)
      | succ fuel =>
          rw [walkLast, hc.1, List.getLastD_cons]
          exact ih hc.2 (Nat.lt_of_succ_lt_succ hfuel)

variable [DecidableEq ι]

theorem walkTo_eq (hc : Chain next (next h) (a ++ t :: b)) (hfuel : (a ++ t :: b).length < fuel) :
    walkTo next t fuel h = some (some (a.getLastD h)) := by
  have hnodup := hc.nodup
  induction a generalizing h fuel with
  | nil =>
      cases fuel with
      | zero => exact absurd hfuel (Nat.not_lt_zero _)
      | succ fuel =>
          have hnext : next h = some t := hc.1
          rw [walkTo, hnext]
          exact if_pos rfl
  | cons i a ih =>
      cases fuel with
      | zero => exact absurd hfuel (Nat.not_lt_zero _)
      | succ fuel =>
          have hnext : next h = some i := hc.1
          have hne : i ≠ t := by
            rintro rfl
            exact (List.nodup_cons.mp hnodup).1 (List.mem_append_right a List.mem_cons_self)
          rw [walkTo, hnext, List.getLastD_cons]
          dsimp only
          rw [if_neg hne]
          exact ih hc.2 (Nat.lt_of_succ_lt_succ hfuel) (List.nodup_cons.mp hnodup).2

theorem walkTo_none (hc : Chain next (next h) l) (ht : t ∉ l) (hfuel : l.length < fuel) :
    walkTo next t fuel h = some none := by
  induction l generalizing h fuel with
  | nil =>
      cases fuel with
      | zero => exact absurd hfuel (Nat.not_lt_zero _)
      | succ fuel =>
          have hnone : next h = none := hc
          rw [walkTo, hnone]
  | cons i l ih =>
      cases fuel with
      | zero => exact absurd hfuel (Nat.not_lt_zero _)
      | succ fuel =>
          have hne : i ≠ t := fun he => ht (he ▸ List.mem_cons_self)
          rw [walkTo, hc.1]
          dsimp only
          rw [if_neg hne]
          exact ih hc.2 (fun hm => ht (List.mem_cons_of_mem i hm)) (Nat.lt_of_succ_lt_succ hfuel)

/-- A new item is linked behind the last one. -/
theorem Chain.snoc (hc : Chain next (next h) l) (hh : h ∉ l) (hnew : new ∉ h :: l)
    (hnone : next new = none) :
    Chain (Function.update next (l.getLastD h) (some new))
      (Function.update next (l.getLastD h) (some new) h) (l ++ [new]) := by
  induction l generalizing h with
  | nil =>
      have hne : new ≠ h := fun he => hnew (he ▸ List.mem_cons_self)
      rw [List.getLastD_nil, Function.update_self]
      exact ⟨rfl, by rw [Function.update_of_ne hne, hnone]; rfl⟩
  | cons i l ih =>
      have hnodup := List.nodup_cons.mp hc.nodup
      have hlast : l.getLastD i ≠ h := by
        intro he
        have hmem : l.getLastD i ∈ i :: l := List.getLastD_mem_cons
        exact hh (he ▸ hmem)
      rw [List.getLastD_cons, Function.update_of_ne hlast.symm]
      refine ⟨hc.1, ih hc.2 hnodup.1 ?_⟩
      exact fun hm => hnew (List.mem_cons_of_mem h hm)

/-- An item is linked out. -/
theorem Chain.remove (hc : Chain next (next h) (a ++ t :: b)) (hh : h ∉ a ++ t :: b) :
    Chain (Function.update next (a.getLastD h) (next t))
      (Function.update next (a.getLastD h) (next t) h) (a ++ b) := by
  induction a generalizing h with
  | nil =>
      have hnot : h ∉ b := fun hm => hh (List.mem_cons_of_mem t hm)
      rw [List.getLastD_nil, Function.update_self]
      refine Chain.congr hc.2 fun i hi => Function.update_of_ne ?_ _ _
      rintro rfl
      exact hnot hi
  | cons i a ih =>
      have hnodup := List.nodup_cons.mp hc.nodup
      have hlast : a.getLastD i ≠ h := by
        intro he
        have hmem : a.getLastD i ∈ i :: a := List.getLastD_mem_cons
        refine hh (he ▸ ?_)
        rcases List.mem_cons.mp hmem with hi | hm
        · rw [hi]
          exact List.mem_cons_self
        · exact List.mem_cons_of_mem i (List.mem_append_left _ hm)
      rw [List.getLastD_cons, Function.update_of_ne hlast.symm]
      exact ⟨hc.1, ih hc.2 hnodup.1⟩

end

end Shaunos
