import Mathlib.Data.Sum.Basic
import Shaunos.Common.Ring

/-!
# Several lists over the same members

The heads of some intrusive lists and the members that move between them are the nodes of one `Links`.
`Queues l q` says that the pointers `l` are the queues `q`, the members of every list in their order, and that no
member is in two of them.

* `Queues.pushFront`, `Queues.pushBack`, `Queues.unlink` — what the list operations do to the queues;
* `Queues.unique` — the pointers determine the queues;
* `IsRing.walk` — the loop over a list meets its members in order.
-/

namespace Links

section

variable {α : Type*} [DecidableEq α]

/-- Link `e` in directly before `h`, by the four pointer writes
`h->prev->next = e; e->next = h; e->prev = h->prev; h->prev = e`. -/
def insertBefore (l : Links α) (h e : α) : Links α :=
  let l := l.setNext (l.prev h) e
  let l := l.setNext e h
  let l := l.setPrev e (l.prev h)
  l.setPrev h e

/-- The nodes that the loop `for (pos = head->next; pos != head; pos = pos->next)` visits, from `pos` on. -/
def walk (l : Links α) (head : α) : (fuel : ℕ) → (pos : α) → Option (List α)
  | 0, _ => none
  | fuel + 1, pos => if pos = head then some [] else (l.walk head fuel (l.next pos)).map (pos :: ·)

variable {l : Links α} {a b e h : α} {xs ys : List α}

theorem insertBefore_next (m : α) :
    (l.insertBefore h e).next m = if m = e then h else if m = l.prev h then e else l.next m := by
  simp [insertBefore, setNext, setPrev, Function.update_apply]

theorem insertBefore_prev (m : α) :
    (l.insertBefore h e).prev m = if m = h then e else if m = e then l.prev h else l.prev m := by
  simp [insertBefore, setNext, setPrev, Function.update_apply]

/-- A node that is linked to itself is a list of its own. -/
theorem selfLoop_eq_self (hnext : l.next e = e) (hprev : l.prev e = e) : l.selfLoop e = l := by
  have hn : (l.selfLoop e).next = l.next := by
    funext m
    rw [selfLoop_next]
    split_ifs with hm
    · rw [hm, hnext]
    · rfl
  have hp : (l.selfLoop e).prev = l.prev := by
    funext m
    rw [selfLoop_prev]
    split_ifs with hm
    · rw [hm, hprev]
    · rfl
  cases l
  cases hu : selfLoop _ e
  simp_all

/-- The segment up to `h` ends at the node that was linked in before `h`. -/
theorem Seg.insertBefore (hseg : l.Seg a xs h) (hnd : (a :: xs).Nodup) (hh : h ∉ xs) (he : e ∉ a :: xs)
    (heh : e ≠ h) : (l.insertBefore h e).Seg a xs e := by
  induction xs generalizing a with
  | nil =>
      have hae : a ≠ e := fun hx => he (by simp [hx])
      refine ⟨?_, ?_⟩
      · rw [insertBefore_next, if_neg hae, if_pos hseg.2.symm]
      · rw [insertBefore_prev, if_neg heh, if_pos rfl, hseg.2]
  | cons x xs ih =>
      have ⟨hnext, hprev, hrest⟩ := hseg
      have hae : a ≠ e := fun hx => he (by simp [hx])
      have hxe : x ≠ e := fun hx => he (by simp [hx])
      have hxh : x ≠ h := fun hx => hh (by simp [hx])
      have hlast : a ≠ l.prev h := by
        intro hx
        exact (List.nodup_cons.mp hnd).1 (hx ▸ hrest.prev_mem)
      refine ⟨?_, ?_, ih hrest hnd.of_cons (fun hx => hh (by simp [hx])) (fun hx => he (by simp_all))⟩
      · rw [insertBefore_next, if_neg hae, if_neg hlast, hnext]
      · rw [insertBefore_prev, if_neg hxh, if_neg hxe, hprev]

namespace IsRing

/-- Inserting an unlinked node before the head puts it at the end. -/
theorem insertBefore (hr : l.IsRing h xs) (he : e ∉ h :: xs) :
    (l.insertBefore h e).IsRing h (xs ++ [e]) := by
  have hne : e ≠ h := fun hx => he (by simp [hx])
  refine ⟨seg_append.mpr ⟨hr.seg.insertBefore hr.nodup hr.head_notMem he hne, ?_, ?_⟩, ?_⟩
  · rw [insertBefore_next, if_pos rfl]
  · rw [insertBefore_prev, if_pos rfl]
  · have hnd := hr.nodup
    rw [← List.cons_append, List.nodup_append]
    refine ⟨hnd, List.nodup_singleton e, ?_⟩
    rintro x hx y hy rfl
    exact he (List.mem_singleton.mp hy ▸ hx)

/-- Inserting into one ring leaves the rings over other nodes as they are. -/
theorem insertBefore_frame {h' : α} (hr : l.IsRing h xs) (hr' : l.IsRing h' ys)
    (hdis : ∀ n ∈ h :: xs, n ∉ h' :: ys) (he : e ∉ h' :: ys) : (l.insertBefore h e).IsRing h' ys := by
  refine hr'.congr (fun n hn => ?_) (fun n hn => ?_)
  · have hne : n ≠ e := fun hx => he (hx ▸ hn)
    have hnp : n ≠ l.prev h := fun hx => hdis _ (hr.prev_mem (by simp)) (hx ▸ hn)
    rw [insertBefore_next, if_neg hne, if_neg hnp]
  · have hnh : n ≠ h := fun hx => hdis h (by simp) (hx ▸ hn)
    have hne : n ≠ e := fun hx => he (hx ▸ hn)
    rw [insertBefore_prev, if_neg hnh, if_neg hne]

omit [DecidableEq α] in
/-- The pointers determine the members. -/
theorem unique (hr : l.IsRing h xs) (hr' : l.IsRing h ys) : xs = ys := by
  have hsegs : ∀ {a : α} {xs ys : List α}, l.Seg a xs h → l.Seg a ys h → h ∉ xs → h ∉ ys → xs = ys := by
    intro a xs
    induction xs generalizing a with
    | nil =>
        intro ys hx hy _ hys
        cases ys with
        | nil => rfl
        | cons y ys => exact absurd (hx.1.symm.trans hy.1) fun hhy => hys (by simp [hhy])
    | cons x xs ih =>
        intro ys hx hy hxs hys
        cases ys with
        | nil => exact absurd (hy.1.symm.trans hx.1) fun hhx => hxs (by simp [hhx])
        | cons y ys =>
            obtain rfl : x = y := hx.1.symm.trans hy.1
            rw [ih hx.2.2 hy.2.2 (fun hh => hxs (by simp [hh])) (fun hh => hys (by simp [hh]))]
  exact hsegs hr.seg hr'.seg hr.head_notMem hr'.head_notMem

/-- The loop over a ring visits its members. -/
theorem walk (hr : l.IsRing h xs) {fuel : ℕ} (hfuel : xs.length < fuel) :
    l.walk h fuel (l.next h) = some xs := by
  have hseg : ∀ {a : α} {xs : List α} {fuel : ℕ}, l.Seg a xs h → h ∉ xs → xs.length < fuel →
      l.walk h fuel (l.next a) = some xs := by
    intro a xs
    induction xs generalizing a with
    | nil =>
        intro fuel hs _ hf
        obtain ⟨fuel, rfl⟩ := Nat.exists_eq_add_of_lt hf
        simp [Links.walk, hs.1]
    | cons x xs ih =>
        intro fuel hs hh hf
        obtain ⟨fuel, rfl⟩ : ∃ n, fuel = n + 1 := ⟨fuel - 1, by omega⟩
        have hxh : x ≠ h := fun hx => hh (by simp [hx])
        have hrest := ih hs.2.2 (fun hx => hh (by simp [hx])) (Nat.lt_of_succ_lt_succ hf)
        rw [hs.1, Links.walk, if_neg hxh, hrest]
        rfl
  exact hseg hr.seg hr.head_notMem hfuel

end IsRing

end

/-! ## Queues -/

section

variable {H M : Type*} {l : Links (H ⊕ M)} {q : H → List M} {h k : H} {m : M}

/-- The pointers are those of the queues. -/
structure Queues (l : Links (H ⊕ M)) (q : H → List M) : Prop where
  ring : ∀ h, l.IsRing (.inl h) ((q h).map .inr)
  apart : ∀ h k m, m ∈ q h → m ∈ q k → h = k

namespace Queues

theorem nodup (hq : Queues l q) (h : H) : (q h).Nodup := (hq.ring h).members_nodup.of_map _

/-- The nodes of two queues are different. -/
theorem disjoint (hq : Queues l q) (hk : h ≠ k) :
    ∀ n ∈ (.inl h :: (q h).map .inr : List (H ⊕ M)), n ∉ (.inl k :: (q k).map .inr : List (H ⊕ M)) := by
  intro n hn hn'
  rcases List.mem_cons.mp hn with rfl | hn
  · simp [hk] at hn'
  · obtain ⟨m, hm, rfl⟩ := List.mem_map.mp hn
    have hm' : m ∈ q k := by simpa using hn'
    exact hk (hq.apart h k m hm hm')

theorem node_notMem (hm : m ∉ q h) : (.inr m : H ⊕ M) ∉ (.inl h :: (q h).map .inr : List (H ⊕ M)) := by
  simpa using hm

theorem next_head (hq : Queues l q) : l.next (.inl h) = ((q h).map .inr).headD (.inl h) := (hq.ring h).next_head

/-- `list_is_empty`. -/
theorem next_head_eq_iff (hq : Queues l q) : l.next (.inl h) = .inl h ↔ q h = [] := by
  rw [(hq.ring h).next_head_eq_iff, List.map_eq_nil_iff]

/-- What follows a member. -/
theorem next_member {as bs : List M} (hq : Queues l q) (hh : q h = as ++ m :: bs) :
    l.next (.inr m) = (bs.map .inr).headD (.inl h) := by
  have hseg := (hq.ring h).seg
  rw [hh, List.map_append, List.map_cons] at hseg
  have hrest := (seg_append.mp hseg).2
  cases bs with
  | nil => exact hrest.1
  | cons b bs => exact hrest.1

/-- The pointers determine the queues. -/
theorem unique {q' : H → List M} (hq : Queues l q) (hq' : Queues l q') : q = q' := by
  funext h
  exact List.map_injective_iff.mpr Sum.inr_injective ((hq.ring h).unique (hq'.ring h))

/-- A member that was taken out is in no queue. -/
theorem notMem_erase [DecidableEq M] (hq : Queues l q) (m : M) (h : H) : m ∉ (q h).erase m :=
  (hq.nodup h).not_mem_erase

section

variable [DecidableEq H]

/-- A node that is in no queue is put in one of them, by writes that leave the other queues. -/
private theorem insert {l' : Links (H ⊕ M)} {ys : List M} (hq : Queues l q) (hm : ∀ h, m ∉ q h)
    (hring : l'.IsRing (.inl k) (ys.map .inr)) (hys : ∀ x, x ∈ ys → x = m ∨ x ∈ q k)
    (hframe : ∀ h, h ≠ k → l'.IsRing (.inl h) ((q h).map .inr)) : Queues l' (Function.update q k ys) := by
  refine ⟨fun h => ?_, fun h h' x hx hx' => ?_⟩
  · by_cases hk : h = k
    · subst hk
      rwa [Function.update_self]
    · rw [Function.update_of_ne hk]
      exact hframe h hk
  · rw [Function.update_apply] at hx hx'
    split_ifs at hx hx' with hk hk' hk'
    · rw [hk, hk']
    · rcases hys x hx with rfl | hin
      · exact absurd hx' (hm h')
      · exact absurd (hq.apart k h' x hin hx').symm hk'
    · rcases hys x hx' with rfl | hin
      · exact absurd hx (hm h)
      · exact absurd (hq.apart h k x hx hin) hk
    · exact hq.apart h h' x hx hx'

variable [DecidableEq M]

/-- `list_del` of a member. -/
theorem unlink (hq : Queues l q) (hm : m ∈ q k) : Queues (l.unlink (.inr m)) (fun h => (q h).erase m) := by
  have hin : (.inr m : H ⊕ M) ∈ (q k).map .inr := List.mem_map_of_mem hm
  refine ⟨fun h => ?_, fun h k' x hx hx' => hq.apart h k' x (List.mem_of_mem_erase hx) (List.mem_of_mem_erase hx')⟩
  by_cases hk : h = k
  · subst hk
    obtain ⟨as, bs, hab⟩ := List.append_of_mem hm
    have hnd := hq.nodup h
    rw [hab] at hnd ⊢
    have hout : m ∉ as := fun hx => (List.nodup_append.mp hnd).2.2 m hx m List.mem_cons_self rfl
    have hr := hq.ring h
    rw [hab, List.map_append, List.map_cons] at hr
    rw [List.erase_append_right _ hout, List.erase_cons_head, List.map_append]
    exact hr.unlink_append
  · have hnot : m ∉ q h := fun hx => hk (hq.apart h k m hx hm)
    rw [List.erase_of_not_mem hnot]
    exact (hq.ring k).unlink_frame (hq.ring h) (hq.disjoint (Ne.symm hk)) hin

/-- `list_add`. -/
theorem pushFront (hq : Queues l q) (hm : ∀ h, m ∉ q h) :
    Queues (l.insertAfter (.inl k) (.inr m)) (Function.update q k (m :: q k)) := by
  refine hq.insert hm ?_ (fun x hx => List.mem_cons.mp hx) fun h hk => ?_
  · exact (hq.ring k).insertAfter (node_notMem (hm k))
  · exact (hq.ring k).insertAfter_frame (hq.ring h) (hq.disjoint (Ne.symm hk)) (node_notMem (hm h))

/-- `list_add_tail`. -/
theorem pushBack (hq : Queues l q) (hm : ∀ h, m ∉ q h) :
    Queues (l.insertBefore (.inl k) (.inr m)) (Function.update q k (q k ++ [m])) := by
  refine hq.insert hm ?_ (fun x hx => ?_) fun h hk => ?_
  · rw [List.map_append]
    exact (hq.ring k).insertBefore (node_notMem (hm k))
  · simpa [or_comm] using hx
  · exact (hq.ring k).insertBefore_frame (hq.ring h) (hq.disjoint (Ne.symm hk)) (node_notMem (hm h))

/-- `list_move_head`. -/
theorem moveFront (hq : Queues l q) (hm : m ∈ q h) : Queues ((l.unlink (.inr m)).insertAfter (.inl k) (.inr m))
    (Function.update (fun h => (q h).erase m) k (m :: (q k).erase m)) :=
  (hq.unlink hm).pushFront (hq.notMem_erase m)

/-- `list_move_tail`. -/
theorem moveBack (hq : Queues l q) (hm : m ∈ q h) : Queues ((l.unlink (.inr m)).insertBefore (.inl k) (.inr m))
    (Function.update (fun h => (q h).erase m) k ((q k).erase m ++ [m])) :=
  (hq.unlink hm).pushBack (hq.notMem_erase m)

/-- `list_init` of a node that is in no queue. -/
theorem selfLoop (hq : Queues l q) (hm : ∀ h, m ∉ q h) : Queues (l.selfLoop (.inr m)) q := by
  refine ⟨fun h => (hq.ring h).congr (fun n hn => ?_) fun n hn => ?_, hq.apart⟩
  · have hne : n ≠ .inr m := fun heq => node_notMem (hm h) (heq ▸ hn)
    rw [selfLoop_next, if_neg hne]
  · have hne : n ≠ .inr m := fun heq => node_notMem (hm h) (heq ▸ hn)
    rw [selfLoop_prev, if_neg hne]

end

end Queues

end

end Links
