import Mathlib.Data.List.Nodup
import Mathlib.Logic.Function.Iterate
import Mathlib.Tactic.Common

/-!
# Intrusive circular doubly linked lists

A node carries two pointers, `prev` and `next`. A list is a head node whose `next` pointers lead
through the members and back to the head, with every `prev` pointer the inverse of the `next` that
reaches it. The pointers of all nodes are one pair of maps, `Links`, so that a pointer write may
alias any other node and several lists live side by side in the same maps.

* `Links.Seg l a xs b` — the pointers lead from `a` through `xs` to `b`, in both directions.
* `Links.IsRing l h xs` — `h` heads a circular list with members `xs`.
* `IsRing.insertAfter`, `IsRing.unlink` — what the two pointer surgeries do to a ring.
* `IsRing.insertAfter_frame`, `IsRing.unlink_frame` — rings over other nodes are untouched.
* `IsRing.onRing_iff` — the nodes met by following `next` from the head are the members.
-/

/-- The `prev` and `next` pointers of every node. -/
structure Links (α : Type*) where
  prev : α → α
  next : α → α

namespace Links

variable {α : Type*} [DecidableEq α]

/-- The pointer write `n->next = v`. -/
def setNext (l : Links α) (n v : α) : Links α :=
  { l with next := Function.update l.next n v }

/-- The pointer write `n->prev = v`. -/
def setPrev (l : Links α) (n v : α) : Links α :=
  { l with prev := Function.update l.prev n v }

/-- Make `n` a list of its own: both pointers lead back to it. -/
def selfLoop (l : Links α) (n : α) : Links α :=
  (l.setPrev n n).setNext n n

/-- Link `e` in directly after `h`, by the four pointer writes
`e->next = h->next; h->next->prev = e; h->next = e; e->prev = h`. -/
def insertAfter (l : Links α) (h e : α) : Links α :=
  let l := l.setNext e (l.next h)
  let l := l.setPrev (l.next h) e
  let l := l.setNext h e
  l.setPrev e h

/-- Take `e` out of the list it is in and leave it self-linked, by the four pointer writes
`e->prev->next = e->next; e->next->prev = e->prev; e->next = e; e->prev = e`. -/
def unlink (l : Links α) (e : α) : Links α :=
  let l := l.setNext (l.prev e) (l.next e)
  let l := l.setPrev (l.next e) (l.prev e)
  let l := l.setNext e e
  l.setPrev e e

/-! ## The surgeries pointer by pointer -/

theorem selfLoop_next (l : Links α) (n m : α) :
    (l.selfLoop n).next m = if m = n then n else l.next m := by
  simp [selfLoop, setNext, setPrev, Function.update_apply]

theorem selfLoop_prev (l : Links α) (n m : α) :
    (l.selfLoop n).prev m = if m = n then n else l.prev m := by
  simp [selfLoop, setNext, setPrev, Function.update_apply]

theorem insertAfter_next (l : Links α) (h e m : α) :
    (l.insertAfter h e).next m = if m = h then e else if m = e then l.next h else l.next m := by
  simp [insertAfter, setNext, setPrev, Function.update_apply]

theorem insertAfter_prev (l : Links α) (h e m : α) :
    (l.insertAfter h e).prev m = if m = e then h else if m = l.next h then e else l.prev m := by
  simp only [insertAfter, setNext, setPrev, Function.update_apply]
  split_ifs <;> simp_all

theorem unlink_next (l : Links α) (e m : α) :
    (l.unlink e).next m = if m = e then e else if m = l.prev e then l.next e else l.next m := by
  simp [unlink, setNext, setPrev, Function.update_apply]

theorem unlink_prev (l : Links α) (e m : α) :
    (l.unlink e).prev m = if m = e then e else if m = l.next e then l.prev e else l.prev m := by
  simp only [unlink, setNext, setPrev, Function.update_apply, ite_self]

/-! ## Segments -/

/-- The pointers lead from `a` through `xs` to `b`, forwards by `next` and backwards by `prev`. -/
def Seg (l : Links α) : α → List α → α → Prop
  | a, [], b => l.next a = b ∧ l.prev b = a
  | a, x :: xs, b => l.next a = x ∧ l.prev x = a ∧ Seg l x xs b

omit [DecidableEq α] in
/-- A segment only depends on the `next` pointers of `a :: xs` and the `prev` pointers of
`xs ++ [b]`. -/
theorem Seg.congr {l l' : Links α} {a b : α} {xs : List α} (hseg : l.Seg a xs b)
    (hnext : ∀ n ∈ a :: xs, l'.next n = l.next n) (hprev : ∀ n ∈ xs ++ [b], l'.prev n = l.prev n) :
    l'.Seg a xs b := by
  induction xs generalizing a with
  | nil => exact ⟨by rw [hnext a (by simp)]; exact hseg.1, by rw [hprev b (by simp)]; exact hseg.2⟩
  | cons x xs ih =>
      obtain ⟨h1, h2, h3⟩ := hseg
      refine ⟨by rw [hnext a (by simp)]; exact h1, by rw [hprev x (by simp)]; exact h2, ?_⟩
      exact ih h3 (fun n hn => hnext n (by simp_all)) (fun n hn => hprev n (by simp_all))

omit [DecidableEq α] in
/-- A segment can be cut at any of its members. -/
theorem seg_append {l : Links α} {a y b : α} {xs ys : List α} :
    l.Seg a (xs ++ y :: ys) b ↔ l.Seg a xs y ∧ l.Seg y ys b := by
  induction xs generalizing a with
  | nil => simp [Seg, and_assoc]
  | cons x xs ih => simp [Seg, ih, and_assoc]

omit [DecidableEq α] in
/-- The node before the end of a segment is its start or its last member. -/
theorem Seg.prev_mem {l : Links α} {a b : α} {xs : List α} (hseg : l.Seg a xs b) :
    l.prev b ∈ a :: xs := by
  induction xs generalizing a with
  | nil => simp [hseg.2]
  | cons x xs ih => exact List.mem_cons_of_mem _ (ih hseg.2.2)

omit [DecidableEq α] in
/-- The node after the start of a segment is its first member or its end. -/
theorem Seg.next_mem {l : Links α} {a b : α} {xs : List α} (hseg : l.Seg a xs b) :
    l.next a ∈ xs ++ [b] := by
  cases xs with
  | nil => simp [hseg.1]
  | cons x xs => simp [hseg.1]

/-- Unlinking the node `e` that joins two segments leaves one segment. -/
theorem Seg.unlink {l : Links α} {a e b : α} {xs ys : List α} (h₁ : l.Seg a xs e)
    (h₂ : l.Seg e ys b) (hnd : (a :: xs ++ e :: ys).Nodup) (hb : b ∉ xs ++ e :: ys) :
    (l.unlink e).Seg a (xs ++ ys) b := by
  induction xs generalizing a with
  | nil =>
      obtain ⟨hae, hea⟩ := h₁
      simp only [List.nil_append, List.mem_cons, not_or, List.cons_append, List.nodup_cons] at hb hnd
      obtain ⟨⟨hane, hays⟩, heys, hys⟩ := hnd
      cases ys with
      | nil =>
          obtain ⟨heb, hbe⟩ := h₂
          exact ⟨by simp [unlink_next, hane, hea, heb], by simp [unlink_prev, hb.1, hea, heb]⟩
      | cons y ys =>
          obtain ⟨hey, hye, hyb⟩ := h₂
          simp only [List.mem_cons, not_or, List.nodup_cons] at hays heys hys hb
          refine ⟨by simp [unlink_next, hane, hea, hey], ?_, hyb.congr ?_ ?_⟩
          · simp [unlink_prev, hea, hey, Ne.symm heys.1]
          · intro n hn
            have hne : n ≠ e := by rintro rfl; simp_all
            have hna : n ≠ a := by rintro rfl; simp_all
            simp [unlink_next, hne, hea, hna]
          · intro n hn
            have hne : n ≠ e := by rintro rfl; simp_all
            have hny : n ≠ y := by rintro rfl; simp_all
            simp [unlink_prev, hne, hey, hny]
  | cons x xs ih =>
      obtain ⟨hax, hxa, hseg⟩ := h₁
      have hprev := hseg.prev_mem
      have hnext := h₂.next_mem
      simp only [List.cons_append, List.nodup_cons, List.mem_cons, List.mem_append, not_or]
        at hb hnd hprev hnext
      refine ⟨?_, ?_, ih hseg (by simp_all) (by simp_all)⟩
      · have hane : a ≠ e := by rintro rfl; simp_all
        have hap : a ≠ l.prev e := by rintro h; simp_all
        simp [unlink_next, hane, hap, hax]
      · have hxe : x ≠ e := by rintro rfl; simp_all
        have hxn : x ≠ l.next e := by
          rintro h
          rcases hnext with hn | hn
          · simp_all
          · simp_all
        simp [unlink_prev, hxe, hxn, hxa]

/-! ## Rings -/

/-- `h` heads a circular list whose members, in order, are `xs`. -/
structure IsRing (l : Links α) (h : α) (xs : List α) : Prop where
  seg : l.Seg h xs h
  nodup : (h :: xs).Nodup

namespace IsRing

variable {l : Links α} {h h' e : α} {xs ys : List α}

omit [DecidableEq α] in
theorem head_notMem (hr : l.IsRing h xs) : h ∉ xs := (List.nodup_cons.mp hr.nodup).1

omit [DecidableEq α] in
theorem members_nodup (hr : l.IsRing h xs) : xs.Nodup := (List.nodup_cons.mp hr.nodup).2

omit [DecidableEq α] in
/-- The head's `next` is the first member, or the head itself when there is none. -/
theorem next_head (hr : l.IsRing h xs) : l.next h = xs.headD h := by
  cases xs with
  | nil => exact hr.seg.1
  | cons x xs => exact hr.seg.1

omit [DecidableEq α] in
/-- A ring is empty exactly when its head points to itself. -/
theorem next_head_eq_iff (hr : l.IsRing h xs) : l.next h = h ↔ xs = [] := by
  rw [hr.next_head]
  cases xs with
  | nil => simp
  | cons x xs =>
      have := hr.head_notMem
      simp only [List.mem_cons, not_or] at this
      simpa using fun hx => this.1 hx.symm

omit [DecidableEq α] in
theorem next_mem (hr : l.IsRing h xs) {n : α} (hn : n ∈ h :: xs) : l.next n ∈ h :: xs := by
  rcases List.mem_cons.mp hn with rfl | hn
  · simpa [or_comm] using hr.seg.next_mem
  · obtain ⟨as, bs, rfl⟩ := List.append_of_mem hn
    have := (seg_append.mp hr.seg).2.next_mem
    simp only [List.mem_append, List.mem_cons] at this ⊢
    tauto

omit [DecidableEq α] in
theorem prev_mem (hr : l.IsRing h xs) {n : α} (hn : n ∈ h :: xs) : l.prev n ∈ h :: xs := by
  rcases List.mem_cons.mp hn with rfl | hn
  · exact hr.seg.prev_mem
  · obtain ⟨as, bs, rfl⟩ := List.append_of_mem hn
    have := (seg_append.mp hr.seg).1.prev_mem
    simp only [List.mem_append, List.mem_cons] at this ⊢
    tauto

omit [DecidableEq α] in
/-- A ring only depends on the pointers of its own nodes. -/
theorem congr {l' : Links α} (hr : l.IsRing h xs) (hnext : ∀ n ∈ h :: xs, l'.next n = l.next n)
    (hprev : ∀ n ∈ h :: xs, l'.prev n = l.prev n) : l'.IsRing h xs :=
  ⟨hr.seg.congr hnext (fun n hn => hprev n (by simpa [or_comm] using hn)), hr.nodup⟩

omit [DecidableEq α] in
/-- A self-linked node heads an empty ring. -/
theorem of_selfLoop (hn : l.next h = h) (hp : l.prev h = h) : l.IsRing h [] :=
  ⟨⟨hn, hp⟩, by simp⟩

/-- Inserting an unlinked node after the head puts it in front. -/
theorem insertAfter (hr : l.IsRing h xs) (he : e ∉ h :: xs) :
    (l.insertAfter h e).IsRing h (e :: xs) := by
  have heh : e ≠ h := fun hx => he (by simp [hx])
  have hnh := hr.next_head
  refine ⟨⟨by simp [insertAfter_next], by simp [insertAfter_prev], ?_⟩, ?_⟩
  · cases xs with
    | nil =>
        refine ⟨?_, ?_⟩
        · simpa [insertAfter_next, heh] using hnh
        · simp [insertAfter_prev, Ne.symm heh, hnh]
    | cons x xs =>
        simp only [List.headD_cons] at hnh
        have hnd := hr.nodup
        simp only [List.mem_cons, not_or, List.nodup_cons] at he hnd
        refine ⟨?_, ?_, hr.seg.2.2.congr ?_ ?_⟩
        · simp [insertAfter_next, heh, hnh]
        · simp [insertAfter_prev, Ne.symm he.2.1, hnh]
        · intro n hn
          have hnh' : n ≠ h := by rintro rfl; simp_all
          have hne : n ≠ e := by rintro rfl; simp_all
          simp [insertAfter_next, hnh', hne]
        · intro n hn
          have hne : n ≠ e := by rintro rfl; simp_all
          have hnx : n ≠ x := by rintro rfl; simp_all
          simp [insertAfter_prev, hne, hnh, hnx]
  · simp only [List.mem_cons, not_or] at he
    have := hr.nodup
    simp only [List.nodup_cons, List.mem_cons, not_or] at this ⊢
    exact ⟨⟨Ne.symm he.1, this.1⟩, he.2, this.2⟩

/-- Inserting into one ring leaves the rings over other nodes as they are. -/
theorem insertAfter_frame (hr : l.IsRing h xs) (hr' : l.IsRing h' ys)
    (hdis : ∀ n ∈ h :: xs, n ∉ h' :: ys) (he : e ∉ h' :: ys) :
    (l.insertAfter h e).IsRing h' ys := by
  refine hr'.congr (fun n hn => ?_) (fun n hn => ?_)
  · have hnh : n ≠ h := fun hx => hdis h (by simp) (hx ▸ hn)
    have hne : n ≠ e := fun hx => he (hx ▸ hn)
    simp [insertAfter_next, hnh, hne]
  · have hne : n ≠ e := fun hx => he (hx ▸ hn)
    have hnn : n ≠ l.next h := fun hx => hdis _ (hr.next_mem (by simp)) (hx ▸ hn)
    simp [insertAfter_prev, hne, hnn]

/-- Unlinking a member leaves those before it and those behind it. -/
theorem unlink_append {as bs : List α} (hr : l.IsRing h (as ++ e :: bs)) :
    (l.unlink e).IsRing h (as ++ bs) := by
  have ⟨h₁, h₂⟩ := seg_append.mp hr.seg
  refine ⟨h₁.unlink h₂ (by simpa using hr.nodup) hr.head_notMem, ?_⟩
  have hsub : (h :: (as ++ bs)).Sublist (h :: (as ++ e :: bs)) := by simp
  exact hsub.nodup hr.nodup

/-- Unlinking a member takes exactly that member out. -/
theorem unlink (hr : l.IsRing h xs) (he : e ∈ xs) : (l.unlink e).IsRing h (xs.erase e) := by
  obtain ⟨as, bs, rfl⟩ := List.append_of_mem he
  have hnd := hr.nodup
  have hea : e ∉ as := by
    simp only [List.nodup_cons, List.nodup_append, List.mem_cons] at hnd
    exact fun hx => hnd.2.2.2 e hx e (Or.inl rfl) rfl
  rw [List.erase_append_right _ hea, List.erase_cons_head]
  exact hr.unlink_append

/-- Unlinking a member of one ring leaves the rings over other nodes as they are. -/
theorem unlink_frame (hr : l.IsRing h xs) (hr' : l.IsRing h' ys)
    (hdis : ∀ n ∈ h :: xs, n ∉ h' :: ys) (he : e ∈ xs) : (l.unlink e).IsRing h' ys := by
  have hmem : e ∈ h :: xs := by simp [he]
  refine hr'.congr (fun n hn => ?_) (fun n hn => ?_)
  · have hne : n ≠ e := fun hx => hdis e hmem (hx ▸ hn)
    have hnp : n ≠ l.prev e := fun hx => hdis _ (hr.prev_mem hmem) (hx ▸ hn)
    simp [unlink_next, hne, hnp]
  · have hne : n ≠ e := fun hx => hdis e hmem (hx ▸ hn)
    have hnn : n ≠ l.next e := fun hx => hdis _ (hr.next_mem hmem) (hx ▸ hn)
    simp [unlink_prev, hne, hnn]

/-- A node that has no neighbour in a ring, but for two that are neighbours already, can be unlinked. -/
theorem unlink_outside (hr : l.IsRing h xs) (he : e ∉ h :: xs)
    (hp : l.prev e ∈ h :: xs → l.next (l.prev e) = l.next e)
    (hn : l.next e ∈ h :: xs → l.prev (l.next e) = l.prev e) : (l.unlink e).IsRing h xs := by
  refine hr.congr (fun n hmem => ?_) (fun n hmem => ?_)
  · have hne : n ≠ e := fun hx => he (hx ▸ hmem)
    rw [unlink_next, if_neg hne]
    split_ifs with hnp
    · rw [hnp, hp (hnp ▸ hmem)]
    · rfl
  · have hne : n ≠ e := fun hx => he (hx ▸ hmem)
    rw [unlink_prev, if_neg hne]
    split_ifs with hnn
    · rw [hnn, hn (hnn ▸ hmem)]
    · rfl

omit [DecidableEq α] in
/-- The first member of a ring heads it as well. -/
theorem rotate {x : α} (hr : l.IsRing h (x :: xs)) : l.IsRing x (xs ++ [h]) := by
  have ⟨hnext, hprev, hseg⟩ := hr.seg
  refine ⟨seg_append.mpr ⟨hseg, hnext, hprev⟩, ?_⟩
  rw [← List.cons_append, List.nodup_append]
  refine ⟨hr.members_nodup, List.nodup_singleton h, ?_⟩
  rintro n hn m hm rfl
  exact hr.head_notMem (List.mem_singleton.mp hm ▸ hn)

omit [DecidableEq α] in
/-- `prev` and `next` undo each other. -/
theorem prev_next (hr : l.IsRing h xs) {n : α} (hn : n ∈ h :: xs) : l.prev (l.next n) = n := by
  rcases List.mem_cons.mp hn with rfl | hn
  · cases xs with
    | nil => rw [hr.seg.1, hr.seg.2]
    | cons x xs => rw [hr.seg.1, hr.seg.2.1]
  · obtain ⟨as, bs, rfl⟩ := List.append_of_mem hn
    have ⟨_, hseg⟩ := seg_append.mp hr.seg
    cases bs with
    | nil => rw [hseg.1, hseg.2]
    | cons x xs => rw [hseg.1, hseg.2.1]

omit [DecidableEq α] in
theorem next_prev (hr : l.IsRing h xs) {n : α} (hn : n ∈ h :: xs) : l.next (l.prev n) = n := by
  -- `next` of a ring is injective, and the node before `n` leads to one
  have ⟨m, hm, hmn⟩ : ∃ m ∈ h :: xs, l.next m = n := by
    rcases List.mem_cons.mp hn with rfl | hn
    · rcases List.eq_nil_or_concat xs with rfl | ⟨as, b, rfl⟩
      · exact ⟨n, by simp, hr.seg.1⟩
      · rw [List.concat_eq_append] at *
        exact ⟨b, by simp, (seg_append.mp hr.seg).2.1⟩
    · obtain ⟨as, bs, rfl⟩ := List.append_of_mem hn
      have ⟨hseg, _⟩ := seg_append.mp hr.seg
      rcases List.eq_nil_or_concat as with rfl | ⟨cs, b, rfl⟩
      · exact ⟨h, by simp, hseg.1⟩
      · rw [List.concat_eq_append] at *
        exact ⟨b, by simp, (seg_append.mp hseg).2.1⟩
  rw [← hmn, hr.prev_next hm]

end IsRing

/-! ## Walking a ring -/

/-- `n` is met on the walk along `next` from `h`, before the walk is back at `h`. -/
def OnRing (l : Links α) (h n : α) : Prop :=
  ∃ k, l.next^[k + 1] h = n ∧ ∀ j ≤ k, l.next^[j + 1] h ≠ h

omit [DecidableEq α] in
/-- Following `next` along a segment meets its members in order. -/
theorem Seg.iterate {a b : α} {l : Links α} {xs : List α} (hseg : l.Seg a xs b) :
    ∀ k (hk : k < xs.length), l.next^[k + 1] a = xs[k] := by
  induction xs generalizing a with
  | nil => simp
  | cons x xs ih =>
      obtain ⟨hax, -, hxb⟩ := hseg
      intro k hk
      rw [Function.iterate_succ_apply, hax]
      cases k with
      | zero => rfl
      | succ k => simpa using ih hxb k (by simpa using hk)

omit [DecidableEq α] in
theorem Seg.iterate_length {a b : α} {l : Links α} {xs : List α} (hseg : l.Seg a xs b) :
    l.next^[xs.length + 1] a = b := by
  induction xs generalizing a with
  | nil => simpa using hseg.1
  | cons x xs ih =>
      rw [List.length_cons, Function.iterate_succ_apply, hseg.1]
      exact ih hseg.2.2

omit [DecidableEq α] in
/-- The nodes on the walk from the head of a ring are its members. -/
theorem IsRing.onRing_iff {l : Links α} {h n : α} {xs : List α} (hr : l.IsRing h xs) :
    l.OnRing h n ↔ n ∈ xs := by
  constructor
  · rintro ⟨k, hk, hne⟩
    have hlt : k < xs.length := by
      by_contra hge
      exact hne xs.length (by omega) hr.seg.iterate_length
    rw [hr.seg.iterate k hlt] at hk
    exact hk ▸ List.getElem_mem hlt
  · intro hn
    obtain ⟨k, hk, rfl⟩ := List.getElem_of_mem hn
    refine ⟨k, hr.seg.iterate k hk, fun j hj => ?_⟩
    rw [hr.seg.iterate j (by omega)]
    exact fun hx => hr.head_notMem (hx ▸ List.getElem_mem _)

end Links
