import Mathlib.Data.List.Basic
import Shaunos.Common.Chain

/-!
# Rows

A row is a doubly linked list that does not close to a ring. What its first item leads back to, and what its last
one leads to, is left open: for a row that ends, this is nothing.

* `row_append` — two rows that join are a row;
* `Row.push`, `Row.insert`, `Row.remove` — what links that are changed make of a row.
-/

namespace Shaunos

variable {ι : Type*}

/-- The items are linked to each other, the first one back to `p`, and the last one to `z`. -/
def Row (next prev : ι → Option ι) : (p : Option ι) → List ι → (z : Option ι) → Prop
  | _, [], _ => True
  | p, i :: l, z => prev i = p ∧ next i = l.head?.or z ∧ Row next prev (some i) l z

section

variable {next prev next' prev' : ι → Option ι} {p p' z z' : Option ι} {a b l : List ι} {i e : ι}

@[simp] theorem row_nil : Row next prev p [] z ↔ True := Iff.rfl

@[simp] theorem row_cons : Row next prev p (i :: l) z ↔
    prev i = p ∧ next i = l.head?.or z ∧ Row next prev (some i) l z := Iff.rfl

theorem row_append : Row next prev p (a ++ b) z ↔
    Row next prev p a (b.head?.or z) ∧ Row next prev (a.getLast?.or p) b z := by
  induction a generalizing p with
  | nil => exact ⟨fun h => ⟨trivial, h⟩, And.right⟩
  | cons i a ih =>
      have hlast : (i :: a).getLast?.or p = a.getLast?.or (some i) := by
        rw [List.getLast?_cons]
        cases a.getLast? <;> rfl
      rw [List.cons_append, row_cons, row_cons, ih, hlast, List.head?_append, Option.or_assoc, and_assoc, and_assoc]

/-- The first item leads back to something else. -/
theorem Row.setPrev (h : Row next prev p l z) (hfirst : ∀ j ∈ l.head?, prev' j = p')
    (hnext : ∀ j ∈ l, next' j = next j) (hprev : ∀ j ∈ l.tail, prev' j = prev j) : Row next' prev' p' l z := by
  induction l generalizing p p' with
  | nil => trivial
  | cons i l ih =>
      obtain ⟨-, hi, h⟩ := h
      refine ⟨hfirst i rfl, (hnext i List.mem_cons_self).trans hi, ih h ?_ ?_ ?_⟩
      · intro j hj
        have hmem := List.mem_of_mem_head? hj
        rw [hprev j hmem]
        cases l with
        | nil => cases hj
        | cons k l =>
            obtain rfl := Option.some.inj hj
            exact h.1
      · exact fun j hj => hnext j (List.mem_cons_of_mem i hj)
      · exact fun j hj => hprev j (List.mem_of_mem_tail hj)

theorem Row.congr (h : Row next prev p l z) (hnext : ∀ j ∈ l, next' j = next j) (hprev : ∀ j ∈ l, prev' j = prev j) :
    Row next' prev' p l z := by
  refine h.setPrev ?_ hnext fun j hj => hprev j (List.mem_of_mem_tail hj)
  intro j hj
  cases l with
  | nil => cases hj
  | cons k l =>
      obtain rfl := Option.some.inj hj
      exact (hprev k List.mem_cons_self).trans h.1

/-- The last item leads to something else. -/
theorem Row.setNext (h : Row next prev p (a ++ [i]) z) (hlast : next' i = z')
    (hnext : ∀ j ∈ a, next' j = next j) (hprev : ∀ j ∈ a ++ [i], prev' j = prev j) :
    Row next' prev' p (a ++ [i]) z' := by
  obtain ⟨ha, hi, -⟩ := row_append.mp h
  refine row_append.mpr ⟨ha.congr hnext fun j hj => hprev j (List.mem_append_left _ hj), ?_, ?_, trivial⟩
  · exact (hprev i (List.mem_append_right a List.mem_cons_self)).trans hi
  · rw [hlast]
    rfl

/-- A row that ends is a chain. -/
theorem Row.chain (h : Row next prev p l none) : Chain next l.head? l := by
  induction l generalizing p with
  | nil => rfl
  | cons i l ih =>
      obtain ⟨-, hi, h⟩ := h
      rw [Option.or_none] at hi
      exact ⟨rfl, hi ▸ ih h⟩

theorem Row.nodup (h : Row next prev p l none) : l.Nodup := h.chain.nodup

/-- The first item of a row that ends does not come again. -/
theorem Row.head_notMem_tail (h : Row next prev p l none) (hi : l.head? = some i) : i ∉ l.tail := by
  cases l with
  | nil => cases hi
  | cons k l =>
      obtain rfl := Option.some.inj hi
      exact (List.nodup_cons.mp h.nodup).1

/-- The part of a row up to `i`, where only what comes behind `i` is changed. -/
theorem Row.front (h : Row next prev p (a ++ i :: b) none) (hni : next' i = z)
    (hnext : ∀ j ∈ a, j ≠ i → next' j = next j)
    (hprev : ∀ j ∈ a ++ [i], j ∉ b → prev' j = prev j) : Row next' prev' p (a ++ [i]) z := by
  have hnodup := h.nodup
  rw [List.append_cons] at hnodup h
  obtain ⟨hna, -, hdisj⟩ := List.nodup_append'.mp hnodup
  refine (row_append.mp h).1.setNext hni ?_ fun j hj => hprev j hj fun hb => hdisj hj hb
  intro j hj
  refine hnext j hj ?_
  rintro rfl
  exact List.disjoint_of_nodup_append hna hj List.mem_cons_self

variable [DecidableEq ι]

/-- The first item of a row that ends leads back to another one. -/
theorem Row.setHead (h : Row next prev p l none) (hnext : ∀ j ∈ l, next' j = next j)
    (hprev : ∀ j ∈ l, prev' j = if l.head? = some j then some i else prev j) : Row next' prev' (some i) l none := by
  refine h.setPrev ?_ hnext ?_
  · exact fun j hj => (hprev j (List.mem_of_mem_head? hj)).trans (if_pos hj)
  · intro j hj
    rw [hprev j (List.mem_of_mem_tail hj), if_neg fun hhead => h.head_notMem_tail hhead hj]

/-- A new item in front. -/
theorem Row.push (h : Row next prev p l none) (he : e ∉ l) (hnext : ∀ j, next' j = if j = e then l.head? else next j)
    (hprev : ∀ j, prev' j = if l.head? = some j then some e else if j = e then p' else prev j) :
    Row next' prev' p' (e :: l) none := by
  have hne (j : ι) (hj : j ∈ l) : j ≠ e := by
    rintro rfl
    exact he hj
  refine ⟨?_, ?_, h.setHead ?_ ?_⟩
  · rw [hprev, if_neg fun hhead : l.head? = some e => he (List.mem_of_mem_head? hhead), if_pos rfl]
  · rw [hnext, if_pos rfl, Option.or_none]
  · exact fun j hj => (hnext j).trans (if_neg (hne j hj))
  · intro j hj
    rw [hprev, if_neg (hne j hj)]

/-- A new item behind `i`. -/
theorem Row.insert (h : Row next prev p (a ++ i :: b) none) (he : e ∉ a ++ i :: b)
    (hnext : ∀ j, next' j = if j = i then some e else if j = e then b.head? else next j)
    (hprev : ∀ j, prev' j = if b.head? = some j then some e else if j = e then some i else prev j) :
    Row next' prev' p (a ++ i :: e :: b) none := by
  have hne (j : ι) (hj : j ∈ a ++ i :: b) : j ≠ e := by
    rintro rfl
    exact he hj
  have hib : i ∉ b := (List.nodup_cons.mp (List.nodup_append'.mp h.nodup).2.1).1
  rw [List.append_cons, row_append, List.getLast?_append, List.getLast?_singleton, Option.some_or, Option.some_or]
  refine ⟨h.front ?_ ?_ ?_, ?_, ?_, ?_⟩
  · rw [hnext, if_pos rfl]
    rfl
  · intro j hj hji
    rw [hnext, if_neg hji, if_neg (hne j (List.mem_append_left _ hj))]
  · intro j hj hjb
    rw [hprev, if_neg fun hhead : b.head? = some j => hjb (List.mem_of_mem_head? hhead), if_neg]
    exact hne j (by rw [List.append_cons]; exact List.mem_append_left b hj)
  · rw [hprev, if_neg fun hhead => he ?_, if_pos rfl]
    exact List.mem_append_right a (List.mem_cons_of_mem i (List.mem_of_mem_head? hhead))
  · rw [hnext, if_neg (hne i (by simp)).symm, if_pos rfl, Option.or_none]
  · have hbe (j : ι) (hj : j ∈ b) : j ≠ e := hne j (List.mem_append_right a (List.mem_cons_of_mem i hj))
    refine (row_append.mp h).2.2.2.setHead ?_ ?_
    · intro j hj
      rw [hnext, if_neg, if_neg (hbe j hj)]
      rintro rfl
      exact hib hj
    · intro j hj
      rw [hprev, if_neg (hbe j hj)]

/-- The item behind `i` is taken out. -/
theorem Row.remove (h : Row next prev p (a ++ i :: e :: b) none)
    (hnext : ∀ j, next' j = if j = i then b.head? else next j)
    (hprev : ∀ j, prev' j = if b.head? = some j then some i else prev j) : Row next' prev' p (a ++ i :: b) none := by
  have hi := (List.nodup_cons.mp (List.nodup_append'.mp h.nodup).2.1).1
  rw [List.append_cons, row_append, List.getLast?_append, List.getLast?_singleton, Option.some_or, Option.some_or]
  refine ⟨h.front ?_ ?_ ?_, (row_append.mp h).2.2.2.2.2.setHead ?_ fun j _ => hprev j⟩
  · rw [hnext, if_pos rfl, Option.or_none]
  · intro j hj hji
    rw [hnext, if_neg hji]
  · intro j hj hjb
    rw [hprev, if_neg fun hhead : b.head? = some j => hjb (List.mem_cons_of_mem e (List.mem_of_mem_head? hhead))]
  · intro j hj
    rw [hnext, if_neg]
    rintro rfl
    exact hi (List.mem_cons_of_mem e hj)

end

end Shaunos
