import Shaunos.Kernel.AvlTree

/-!
# AVL trees as maps

Reference: `Kernel/avltree.c` (`avl_insert`, `avl_delete`, `avl_find`).

The kernel looks threads and processes up by their numbers, so a tree stands for a map. Insertion keeps
the map for all balanced trees. Deletion on the left of a node does a double rotation where a single one
is needed, and then follows a null pointer when the right child has no left child.

* `avlInsert_keeps` — what insertion does to the map;
* `avlDelete_ne_none_iff` — when deletion comes back;
* `deleteRight_iff` — every sequence of insertions and deletions.
-/

namespace Shaunos.Avl

open AvlNode

/-! ## Lookup -/

section

variable {α π : Type*}

/-- The payload of a node, if there is one. -/
def AvlNode.payload : AvlNode α π → Option π
  | null => none
  | node _ payload _ _ _ => some payload

variable {t t' l r : AvlNode α π} {v k : α} {pl p x : π} {h : ℤ} {y : α × π}

theorem mem_values_of_mem (hy : y ∈ entries t) : y.1 ∈ values t := by
  rw [values_eq_entries]
  exact List.mem_map_of_mem hy

variable [LinearOrder α]

/-- `avl_find`. -/
def avlFind (val : α) : AvlNode α π → AvlNode α π
  | null => null
  | node v pl l r h =>
      if v < val then avlFind val r
      else if val < v then avlFind val l
      else node v pl l r h

/-- In a search tree, the entry of a value is found. -/
theorem payload_avlFind (ht : (values t).Pairwise (· < ·)) :
    (avlFind k t).payload = some x ↔ (k, x) ∈ entries t := by
  induction t with
  | null => simp [avlFind, AvlNode.payload]
  | node v pl l r h ihl ihr =>
      have ⟨hl, hr, hlt, hgt⟩ := pairwise_around.mp ht
      -- a value on the wrong side of `v` is not there
      have hleft : (k, x) ∈ entries l → k < v := fun hy => hlt k (mem_values_of_mem hy)
      have hright : (k, x) ∈ entries r → v < k := fun hy => hgt k (mem_values_of_mem hy)
      rw [avlFind, entries_node, List.mem_append, List.mem_cons, Prod.mk.injEq]
      rcases lt_trichotomy v k with hvk | rfl | hkv
      · rw [if_pos hvk, ihr hr]
        have hne : k ≠ v := hvk.ne'
        have hnot : (k, x) ∉ entries l := fun hy => lt_asymm hvk (hleft hy)
        grind
      · rw [if_neg (lt_irrefl v), if_neg (lt_irrefl v)]
        have hnotl : (v, x) ∉ entries l := fun hy => lt_irrefl v (hleft hy)
        have hnotr : (v, x) ∉ entries r := fun hy => lt_irrefl v (hright hy)
        have heq : pl = x ↔ x = pl := eq_comm
        simp only [AvlNode.payload, Option.some.injEq]
        grind
      · rw [if_neg hkv.not_gt, if_pos hkv, ihl hl]
        have hne : k ≠ v := hkv.ne
        have hnot : (k, x) ∉ entries r := fun hy => lt_asymm hkv (hright hy)
        grind

omit [LinearOrder α] in
theorem leftmost_mem (h : leftmost t = some y) : y ∈ entries t := by
  induction t with
  | null => exact absurd h (Option.some_ne_none y).symm
  | node k p l r h' ihl _ =>
      rw [leftmost] at h
      rw [entries_node, List.mem_append, List.mem_cons]
      cases hfirst : leftmost l with
      | none =>
          rw [hfirst, Option.none_or] at h
          exact .inr (.inl (Option.some.inj h).symm)
      | some m =>
          rw [hfirst, Option.some_or] at h
          exact .inl (ihl (hfirst.trans h))

/-- A value has one entry. -/
theorem entry_unique {y' : α × π} (ht : (values t).Pairwise (· < ·)) (hy : y ∈ entries t)
    (hy' : y' ∈ entries t) (heq : y.1 = y'.1) : y = y' := by
  obtain ⟨k, x⟩ := y
  obtain ⟨k', x'⟩ := y'
  obtain rfl : k = k' := heq
  have h := (payload_avlFind ht).mpr hy
  rw [(payload_avlFind ht).mpr hy'] at h
  rw [Option.some.inj h]

/-! ## Insertion -/

/-- What insertion does to the entries. -/
theorem avlInsert_entries (ht : (values t).Pairwise (· < ·)) (hins : avlInsert v pl t = some t') :
    y ∈ entries t' ↔ y ∈ entries t ∨ (y = (v, pl) ∧ v ∉ values t) := by
  induction t generalizing t' with
  | null =>
      obtain rfl := Option.some.inj hins
      simp
  | node k p l r h ihl ihr =>
      obtain ⟨hl, hr, hlt, hgt⟩ := pairwise_around.mp ht
      rcases lt_trichotomy v k with hvk | rfl | hkv
      · obtain ⟨l', hl', hentries⟩ := avlInsert_left hvk hins
        have hnot : v ∉ values r := fun hv => lt_asymm hvk (hgt v hv)
        rw [hentries, List.mem_append, ihl hl hl', entries_node, values_node]
        have hne : v ≠ k := hvk.ne
        simp only [List.mem_append, List.mem_cons]
        grind
      · rw [avlInsert, if_neg (lt_irrefl v), if_neg (lt_irrefl v)] at hins
        obtain rfl := Option.some.inj hins
        simp
      · obtain ⟨r', hr', hentries⟩ := avlInsert_right hkv hins
        have hnot : v ∉ values l := fun hv => lt_asymm hkv (hlt v hv)
        rw [hentries, List.mem_append, List.mem_cons, ihr hr hr', entries_node, values_node]
        have hne : v ≠ k := hkv.ne'
        simp only [List.mem_append, List.mem_cons]
        grind

theorem payload_avlFind_eq_none (ht : (values t).Pairwise (· < ·)) :
    (avlFind v t).payload = none ↔ v ∉ values t := by
  rw [Option.eq_none_iff_forall_not_mem, values_eq_entries, List.mem_map]
  simp only [Option.mem_def, payload_avlFind ht]
  constructor
  · rintro h ⟨⟨v', x⟩, hmem, rfl⟩
    exact h x hmem
  · intro h x hmem
    exact h ⟨(v, x), hmem, rfl⟩

/-- **Insertion into a well-formed tree comes back with one, and adds the payload to the map if the value
has none.** -/
theorem avlInsert_keeps (ht : WellFormed t) (v : α) (pl : π) :
    ∃ t', avlInsert v pl t = some t' ∧ WellFormed t' ∧ ∀ k, (avlFind k t').payload =
      if k = v ∧ (avlFind v t).payload = none then some pl else (avlFind k t).payload := by
  have ⟨hsearch, hinv⟩ := wellFormed_iff_heightInv.mp ht
  have hsorted := isSearchTree_iff.mp hsearch
  have ⟨t', hins, hinv', _⟩ := avlInsert_height v pl hinv
  have hsorted' := (avlInsert_values hsorted hins).1
  refine ⟨t', hins, wellFormed_iff_heightInv.mpr ⟨isSearchTree_iff.mpr hsorted', hinv'⟩, ?_⟩
  intro k
  ext x
  have hnone := payload_avlFind_eq_none (v := v) hsorted
  rw [payload_avlFind hsorted', avlInsert_entries hsorted hins, Prod.mk.injEq]
  split
  · rename_i hnew
    obtain ⟨rfl, hnot⟩ := hnew
    rw [hnone] at hnot
    have habsent : (k, x) ∉ entries t := fun hy => hnot (mem_values_of_mem hy)
    rw [Option.some.injEq]
    have heq : pl = x ↔ x = pl := eq_comm
    grind
  · rename_i hold
    rw [hnone] at hold
    rw [payload_avlFind hsorted]
    grind

/-- The insertion of 2 under 1 and above 3. -/
theorem avlInsert_keeps_two :
    ∃ t' : AvlNode (Fin (2 ^ 32)) ℕ, avlInsert 2 20 (node 1 10 null null 0) = some t' ∧ WellFormed t' ∧
      ∀ k, (avlFind k t').payload = if k = 2 ∧ (avlFind 2 (node 1 10 null null 0)).payload = none then some 20
        else (avlFind k (node 1 10 null null 0)).payload :=
  avlInsert_keeps (t := node 1 10 null null 0)
    ⟨by simp [IsSearchTree], by simp [HeightsRight, realHeight], by simp [Balanced, realHeight]⟩ 2 20

end

/-! ## Stored heights -/

section

variable {α π : Type*}

/-- Stored heights are not negative, and a leaf has height 0. They need not be the real ones. -/
def StoredOk : AvlNode α π → Prop
  | null => True
  | node _ _ l r h =>
      StoredOk l ∧ StoredOk r ∧ 0 ≤ h ∧ (l.isNull = true → r.isNull = true → h = 0)

variable {t' l r t : AvlNode α π} {v k : α} {p : π} {h : ℤ}

@[simp] theorem storedOk_null : StoredOk (null : AvlNode α π) := trivial

theorem StoredOk.height_ge (ht : StoredOk t) : -1 ≤ t.height := by
  cases t with
  | null => exact le_rfl
  | node k p l r h =>
      have := ht.2.2.1
      exact this.trans' (by omega)

/-- A node that is no leaf has a height above 0 when it is set. -/
@[simp] theorem storedOk_fresh : StoredOk (fresh v pl l r) ↔ StoredOk l ∧ StoredOk r := by
  constructor
  · rintro ⟨hl, hr, _, _⟩
    exact ⟨hl, hr⟩
  · rintro ⟨hl, hr⟩
    refine ⟨hl, hr, ?_, ?_⟩
    · have := hl.height_ge
      omega
    · intro hnl hnr
      rw [isNull_iff.mp hnl, isNull_iff.mp hnr]
      rfl

theorem storedOk_setHeight (ht : StoredOk t) : StoredOk t.setHeight := by
  cases t with
  | null => trivial
  | node k p l r h => exact storedOk_fresh.mpr ⟨ht.1, ht.2.1⟩

theorem storedOk_singleRotateWithLeft (hl : StoredOk l) (hr : StoredOk r)
    (hrot : singleRotateWithLeft (node k p l r h) = some t') : StoredOk t' := by
  match l, hrot with
  | node .., hrot =>
      obtain rfl := Option.some.inj hrot
      simp only [storedOk_fresh]
      exact ⟨hl.1, hl.2.1, hr⟩

theorem storedOk_singleRotateWithRight (hl : StoredOk l) (hr : StoredOk r)
    (hrot : singleRotateWithRight (node k p l r h) = some t') : StoredOk t' := by
  match r, hrot with
  | node .., hrot =>
      obtain rfl := Option.some.inj hrot
      simp only [storedOk_fresh]
      exact ⟨⟨hl, hr.1⟩, hr.2.1⟩

theorem storedOk_doubleRotateWithLeft (hl : StoredOk l) (hr : StoredOk r)
    (hrot : doubleRotateWithLeft (node k p l r h) = some t') : StoredOk t' := by
  have ⟨l', hl', hrot'⟩ := Option.bind_eq_some_iff.mp hrot
  cases l with
  | null => exact absurd hl' (Option.some_ne_none l').symm
  | node =>
      exact storedOk_singleRotateWithLeft (storedOk_singleRotateWithRight hl.1 hl.2.1 hl') hr hrot'

theorem storedOk_doubleRotateWithRight (hl : StoredOk l) (hr : StoredOk r)
    (hrot : doubleRotateWithRight (node k p l r h) = some t') : StoredOk t' := by
  have ⟨r', hr', hrot'⟩ := Option.bind_eq_some_iff.mp hrot
  cases r with
  | null => exact absurd hr' (Option.some_ne_none r').symm
  | node =>
      exact storedOk_singleRotateWithRight hl (storedOk_singleRotateWithLeft hr.1 hr.2.1 hr') hrot'

/-! ### The rotations of a deletion -/

/-- The left child `l` ends two lower than `r`: there is nothing to rotate if `r` has no left child. -/
theorem deleteFix_left_none (hl : StoredOk l) (hr : StoredOk r) (hdiff : r.height - l.height = 2)
    (hnull : r.left.isNull = true) :
    (if r.right.height > r.left.height then doubleRotateWithRight (node k p l r h)
      else singleRotateWithRight (node k p l r h)) = none := by
  have hlow := hl.height_ge
  cases r with
  | null =>
      rw [height_null] at hdiff
      omega
  | node rk rp rl rr rh =>
      obtain rfl := isNull_iff.mp hnull
      cases rr with
      | null =>
          -- a leaf is not that high
          have hleaf := hr.2.2.2 rfl rfl
          rw [height_node] at hdiff
          omega
      | node =>
          have hpos := hr.2.1.2.2.1
          rw [if_pos (by change (_ : ℤ) > -1; exact lt_of_lt_of_le (by omega) hpos)]
          rfl

theorem deleteFix_left_some (hl : StoredOk l) (hr : StoredOk r) (hnull : r.left.isNull = false) :
    ∃ t', (if r.right.height > r.left.height then doubleRotateWithRight (node k p l r h)
        else singleRotateWithRight (node k p l r h)) = some t' ∧ StoredOk t' ∧
      t'.height = if r.right.height > r.left.height then
          max (max l.height r.left.left.height + 1) (max r.left.right.height r.right.height + 1) + 1
        else max (max l.height r.left.height + 1) r.right.height + 1 := by
  match r, hnull, hr with
  | node rk rp (node xk xp xl xr xh) rr rh, _, hr =>
      split
      · exact ⟨_, rfl, storedOk_doubleRotateWithRight (h := h) hl hr rfl, rfl⟩
      · exact ⟨_, rfl, storedOk_singleRotateWithRight (h := h) hl hr rfl, rfl⟩

/-- When the right child `r` ends two lower than `l`, there is always something to rotate. -/
theorem deleteFix_right_some (hl : StoredOk l) (hr : StoredOk r) (hdiff : l.height - r.height = 2) :
    ∃ t', (if l.left.height > l.right.height then singleRotateWithLeft (node k p l r h)
        else doubleRotateWithLeft (node k p l r h)) = some t' ∧ StoredOk t' ∧
      t'.height = if l.left.height > l.right.height then
          max l.left.height (max l.right.height r.height + 1) + 1
        else max (max l.left.height l.right.left.height + 1) (max l.right.right.height r.height + 1) + 1 := by
  have hrow := hr.height_ge
  cases l with
  | null =>
      rw [height_null] at hdiff
      omega
  | node lk lp ll lr lh =>
      split
      · exact ⟨_, rfl, storedOk_singleRotateWithLeft (h := h) hl hr rfl, rfl⟩
      · rename_i hle
        cases lr with
        | null =>
            -- then there is no left child either
            have hnull : ll = null := by
              cases ll with
              | null => rfl
              | node =>
                  have hpos := hl.1.2.2.1
                  exact absurd (lt_of_lt_of_le (by omega : (-1 : ℤ) < 0) hpos) hle
            subst hnull
            have hleaf := hl.2.2.2 rfl rfl
            rw [height_node] at hdiff
            omega
        | node => exact ⟨_, rfl, storedOk_doubleRotateWithLeft (h := h) hl hr rfl, rfl⟩

end

/-! ## What deletion needs -/

section

variable {α π : Type*} [LinearOrder α]

/-- The height that is stored in what deletion leaves. -/
def heightWithout (v : α) : AvlNode α π → ℤ
  | null => -1
  | node k _ l r h =>
      if v < k then
        let hl := heightWithout v l
        if r.height - hl = 2 then
          if r.right.height > r.left.height then
            max (max hl r.left.left.height + 1) (max r.left.right.height r.right.height + 1) + 1
          else max (max hl r.left.height + 1) r.right.height + 1
        else max hl r.height + 1
      else if k < v then
        let hr := heightWithout v r
        if l.height - hr = 2 then
          if l.left.height > l.right.height then max l.left.height (max l.right.height hr + 1) + 1
          else max (max l.left.height l.right.left.height + 1) (max l.right.right.height hr + 1) + 1
        else max l.height hr + 1
      else if l.isNull then r.height
      else if r.isNull then l.height
      else h

/-- Where the way of the deletion of `v` goes to the left, the left child does not end two lower than a
right child that has no left child. -/
def DeleteSafe : (v : α) → AvlNode α π → Prop
  | _, null => True
  | v, node k _ l r _ =>
      if v < k then DeleteSafe v l ∧ ¬ (r.left.isNull = true ∧ r.height = heightWithout v l + 2)
      else if k < v then DeleteSafe v r
      else ∀ m ∈ leftmost r, l.isNull = true ∨ DeleteSafe m.1 r

instance DeleteSafe.decidable : ∀ (v : α) (t : AvlNode α π), Decidable (DeleteSafe v t)
  | _, null => isTrue trivial
  | v, node k _ l r _ =>
      have := DeleteSafe.decidable v l
      have := DeleteSafe.decidable v r
      have : ∀ m : α × π, Decidable (DeleteSafe m.1 r) := fun m => DeleteSafe.decidable m.1 r
      inferInstanceAs (Decidable (if v < k then _ else if k < v then _ else _))

variable {t t' l r : AvlNode α π} {v k : α} {p pl : π} {h : ℤ} {y : α × π}

/-- Insertion keeps the stored heights in order. -/
theorem storedOk_avlInsert (ht : StoredOk t) (hins : avlInsert v pl t = some t') : StoredOk t' := by
  induction t generalizing t' with
  | null =>
      obtain rfl := Option.some.inj hins
      simp [StoredOk]
  | node k p l r h ihl ihr =>
      obtain ⟨hl, hr, _, _⟩ := ht
      rw [avlInsert] at hins
      split at hins
      · obtain ⟨l', hl', hfix⟩ := Option.bind_eq_some_iff.mp hins
        have hok := ihl hl hl'
        dsimp only at hfix
        split at hfix
        · obtain ⟨q, hrot, hq⟩ := Option.map_eq_some_iff.mp hfix
          rw [← hq]
          split at hrot
          · exact storedOk_setHeight (storedOk_singleRotateWithLeft hok hr hrot)
          · exact storedOk_setHeight (storedOk_doubleRotateWithLeft hok hr hrot)
        · obtain rfl := Option.some.inj hfix
          exact storedOk_fresh.mpr ⟨hok, hr⟩
      split at hins
      · obtain ⟨r', hr', hfix⟩ := Option.bind_eq_some_iff.mp hins
        have hok := ihr hr hr'
        dsimp only at hfix
        split at hfix
        · obtain ⟨q, hrot, hq⟩ := Option.map_eq_some_iff.mp hfix
          rw [← hq]
          split at hrot
          · exact storedOk_setHeight (storedOk_singleRotateWithRight hl hok hrot)
          · exact storedOk_setHeight (storedOk_doubleRotateWithRight hl hok hrot)
        · obtain rfl := Option.some.inj hfix
          exact storedOk_fresh.mpr ⟨hl, hok⟩
      · obtain rfl := Option.some.inj hins
        exact storedOk_fresh.mpr ⟨hl, hr⟩

/-! ### When deletion comes back -/

/-- What a deletion leaves when it is safe. -/
def Leaves (v : α) (t : AvlNode α π) : Prop :=
  ∃ t', avlDelete v t = some t' ∧ StoredOk t' ∧ t'.height = heightWithout v t

theorem avlDelete_safe (ht : StoredOk t) :
    (DeleteSafe v t → Leaves v t) ∧ (¬ DeleteSafe v t → avlDelete v t = none) := by
  induction t generalizing v with
  | null => exact ⟨fun _ => ⟨null, rfl, trivial, rfl⟩, fun h => absurd trivial h⟩
  | node k p l r h ihl ihr =>
      obtain ⟨hl, hr, hpos, _⟩ := ht
      rw [DeleteSafe, Leaves, avlDelete, heightWithout]
      rcases lt_trichotomy v k with hvk | rfl | hkv
      · simp only [if_pos hvk]
        by_cases hsafe : DeleteSafe v l
        · obtain ⟨l', hl', hok, hheight⟩ := (ihl hl).1 hsafe
          rw [hl', ← hheight]
          dsimp only [Option.bind_eq_bind, Option.bind_some]
          by_cases hdiff : r.height - l'.height = 2
          · rw [if_pos hdiff, if_pos hdiff]
            cases hnull : r.left.isNull with
            | true =>
                refine ⟨fun h => absurd ⟨rfl, by omega⟩ h.2, fun _ => ?_⟩
                exact deleteFix_left_none hok hr hdiff hnull
            | false =>
                refine ⟨fun _ => deleteFix_left_some hok hr hnull, fun h => absurd ⟨hsafe, ?_⟩ h⟩
                simp
          · rw [if_neg hdiff, if_neg hdiff]
            refine ⟨fun _ => ⟨_, rfl, storedOk_fresh.mpr ⟨hok, hr⟩, rfl⟩, fun h => absurd ⟨hsafe, ?_⟩ h⟩
            rintro ⟨_, heq⟩
            omega
        · rw [(ihl hl).2 hsafe]
          exact ⟨fun h => absurd h.1 hsafe, fun _ => rfl⟩
      · simp only [if_neg (lt_irrefl v)]
        by_cases hnull : l.isNull = true
        · simp only [hnull, if_true, true_or, implies_true, not_true_eq_false, false_implies, and_true]
          exact fun _ => ⟨r, rfl, hr, rfl⟩
        · simp only [hnull, if_false, false_or, Bool.false_eq_true]
          cases hfirst : leftmost r with
          | none =>
              have hnull' : r.isNull = true := isNull_iff.mpr (leftmost_eq_none.mp hfirst)
              simp only [Option.mem_def, reduceCtorEq, false_implies, implies_true, not_true_eq_false,
                and_true, hnull', if_true]
              exact fun _ => ⟨l, rfl, hl, rfl⟩
          | some m =>
              have hnull' : r.isNull = false := by
                cases r with
                | null => exact absurd hfirst (Option.some_ne_none m).symm
                | node => rfl
              simp only [Option.mem_def, Option.some.injEq, forall_eq', hnull', Bool.false_eq_true, if_false]
              by_cases hsafe : DeleteSafe m.1 r
              · obtain ⟨r', hr', hok, _⟩ := (ihr hr).1 hsafe
                rw [hr']
                refine ⟨fun _ => ⟨_, rfl, ⟨hl, hok, hpos, fun h => absurd h hnull⟩, rfl⟩, ?_⟩
                exact fun h => absurd hsafe h
              · rw [(ihr hr).2 hsafe]
                exact ⟨fun h => absurd h hsafe, fun _ => rfl⟩
      · simp only [if_neg hkv.not_gt, if_pos hkv]
        by_cases hsafe : DeleteSafe v r
        · obtain ⟨r', hr', hok, hheight⟩ := (ihr hr).1 hsafe
          rw [hr', ← hheight]
          dsimp only [Option.bind_eq_bind, Option.bind_some]
          refine ⟨fun _ => ?_, fun h => absurd hsafe h⟩
          by_cases hdiff : l.height - r'.height = 2
          · rw [if_pos hdiff, if_pos hdiff]
            exact deleteFix_right_some hl hok hdiff
          · rw [if_neg hdiff, if_neg hdiff]
            exact ⟨_, rfl, storedOk_fresh.mpr ⟨hl, hok⟩, rfl⟩
        · rw [(ihr hr).2 hsafe]
          exact ⟨fun h => absurd h hsafe, fun _ => rfl⟩

/-- Deletion comes back exactly when it is safe. -/
theorem avlDelete_ne_none_iff (ht : StoredOk t) :
    (∃ t', avlDelete v t = some t') ↔ DeleteSafe v t := by
  constructor
  · rintro ⟨t', hdel⟩
    by_contra hsafe
    rw [(avlDelete_safe ht).2 hsafe] at hdel
    exact Option.some_ne_none t' hdel.symm
  · intro hsafe
    have ⟨t', hdel, _⟩ := (avlDelete_safe ht).1 hsafe
    exact ⟨t', hdel⟩

theorem heightWithout_ge (ht : StoredOk t) : -1 ≤ heightWithout v t := by
  cases t with
  | null => exact le_rfl
  | node k p l r h =>
      have ⟨hl, hr, hpos, _⟩ := ht
      have hlow := hl.height_ge
      have hrow := hr.height_ge
      rw [heightWithout]
      dsimp only
      split_ifs <;> omega

omit [LinearOrder α] in
theorem HeightInv.storedOk (ht : HeightInv t) : StoredOk t := by
  induction t with
  | null => trivial
  | node k p l r h ihl ihr =>
      have ⟨hl, hr, hh, _⟩ := ht
      have hlow := hl.height_ge
      refine ⟨ihl hl, ihr hr, by omega, ?_⟩
      intro hnl hnr
      rw [hh, isNull_iff.mp hnl, isNull_iff.mp hnr]
      rfl

omit [LinearOrder α] in
theorem HeightInv.isNull_iff_height (ht : HeightInv t) : t.isNull = true ↔ t.height = -1 := by
  cases t with
  | null => simp [isNull]
  | node k p l r h =>
      obtain ⟨hl, _, hh, _⟩ := ht
      have hlow := hl.height_ge
      rw [height_node]
      simp only [isNull, Bool.false_eq_true, false_iff]
      omega

/-- Nothing is left of a tree only if it was empty or had the one value. -/
theorem heightWithout_eq_neg_one (ht : HeightInv t) :
    heightWithout v t = -1 ↔ t = null ∨ (t.val = some v ∧ t.height = 0) := by
  cases t with
  | null => simp [heightWithout]
  | node k p l r h =>
      have ⟨hl, hr, hh, _⟩ := ht
      have hlow := hl.height_ge
      have hrow := hr.height_ge
      have hleft := heightWithout_ge (v := v) hl.storedOk
      have hright := heightWithout_ge (v := v) hr.storedOk
      rw [heightWithout]
      rcases lt_trichotomy v k with hvk | rfl | hkv
      · have hval : (node k p l r h).val ≠ some v := fun heq => hvk.ne' (Option.some.inj heq)
        simp only [if_pos hvk, hval, reduceCtorEq, false_and, or_self, iff_false]
        split_ifs <;> omega
      · have hnl : l.isNull = true ↔ l.height = -1 := hl.isNull_iff_height
        have hnr : r.isNull = true ↔ r.height = -1 := hr.isNull_iff_height
        simp only [if_neg (lt_irrefl v), reduceCtorEq, false_or, AvlNode.val, true_and, height_node, hnl,
          hnr]
        split_ifs <;> omega
      · have hval : (node k p l r h).val ≠ some v := fun heq => hkv.ne (Option.some.inj heq)
        simp only [if_neg hkv.not_gt, if_pos hkv, hval, reduceCtorEq, false_and, or_self, iff_false]
        split_ifs <;> omega

/-- In a balanced tree, a turn to the left is not safe exactly when the left child is a leaf with the
value and the right child has nothing but a right child. -/
theorem not_safe_turn_iff (ht : HeightInv (node k p l r h)) :
    (r.left.isNull = true ∧ r.height = heightWithout v l + 2) ↔
      (l.val = some v ∧ l.height = 0) ∧ r.left.isNull = true ∧ r.height = 1 := by
  have ⟨hl, hr, _, hle, hge⟩ := ht
  have hleft := heightWithout_ge (v := v) hl.storedOk
  have hlow := hl.height_ge
  have hempty := heightWithout_eq_neg_one (v := v) hl
  have hone : r.left.isNull = true → r.height ≤ 1 := by
    intro hnull
    cases r with
    | null =>
        rw [height_null]
        omega
    | node rk rp rl rr rh =>
        have ⟨_, _, hrh, _, hrge⟩ := hr
        obtain rfl := isNull_iff.mp hnull
        rw [height_null] at *
        rw [height_node]
        omega
  constructor
  · rintro ⟨hnull, heq⟩
    have hle1 := hone hnull
    have hgone : heightWithout v l = -1 := by omega
    refine ⟨?_, hnull, by omega⟩
    rcases hempty.mp hgone with rfl | hleaf
    · rw [height_null] at hge
      omega
    · exact hleaf
  · rintro ⟨hleaf, hnull, hh⟩
    have hgone := hempty.mpr (.inr hleaf)
    exact ⟨hnull, by omega⟩

/-! ## Runs -/

/-- A deletion comes back with a tree that has the values of the old one but `v`, each with its own
payload. Of an insertion nothing is asked. -/
def AvlCall.Right (t : AvlNode α π) : AvlCall α π → Prop
  | .insert .. => True
  | .delete v => ∃ t', avlDelete v t = some t' ∧ (∀ x, x ∈ values t' ↔ x ∈ values t ∧ x ≠ v) ∧
      ∀ k, (avlFind k t').payload = if k = v then none else (avlFind k t).payload

/-- A deletion that is safe. -/
def AvlCall.Safe (t : AvlNode α π) : AvlCall α π → Prop
  | .insert .. => True
  | .delete v => DeleteSafe v t

instance (t : AvlNode α π) : ∀ c : AvlCall α π, Decidable (c.Safe t)
  | .insert .. => isTrue trivial
  | .delete v => DeleteSafe.decidable v t

/-- What deletion does to the entries. -/
theorem avlDelete_entries (ht : (values t).Pairwise (· < ·)) (hdel : avlDelete v t = some t') :
    y ∈ entries t' ↔ y ∈ entries t ∧ y.1 ≠ v := by
  induction t generalizing v t' with
  | null =>
      obtain rfl := Option.some.inj hdel
      simp
  | node k p l r h ihl ihr =>
      obtain ⟨hl, hr, hlt, hgt⟩ := pairwise_around.mp ht
      have hleft : y ∈ entries l → y.1 < k := fun hy => hlt y.1 (mem_values_of_mem hy)
      have hright : y ∈ entries r → k < y.1 := fun hy => hgt y.1 (mem_values_of_mem hy)
      have hhere : y = (k, p) → y.1 = k := congrArg Prod.fst
      rcases lt_trichotomy v k with hvk | rfl | hkv
      · obtain ⟨l', hl', hentries⟩ := avlDelete_left_entries hvk hdel
        have hne : y.1 = k → y.1 ≠ v := fun heq => heq ▸ hvk.ne'
        have hne' : k < y.1 → y.1 ≠ v := fun hlt => (hvk.trans hlt).ne'
        rw [hentries, List.mem_append, List.mem_cons, ihl hl hl', entries_node, List.mem_append,
          List.mem_cons]
        grind
      · rw [avlDelete, if_neg (lt_irrefl v), if_neg (lt_irrefl v)] at hdel
        have hne : y.1 < v → y.1 ≠ v := ne_of_lt
        have hne' : v < y.1 → y.1 ≠ v := ne_of_gt
        rw [entries_node, List.mem_append, List.mem_cons]
        split at hdel
        · rename_i hnull
          obtain rfl : r = t' := Option.some.inj hdel
          rw [isNull_iff.mp hnull, entries_null]
          simp only [List.not_mem_nil, false_or]
          grind
        split at hdel
        · rename_i hnone
          obtain rfl : l = t' := Option.some.inj hdel
          rw [leftmost_eq_none.mp hnone, entries_null]
          simp only [List.not_mem_nil, or_false]
          grind
        · -- the first entry on the right takes the place of `v`
          rename_i m pm hfirst
          obtain ⟨r', hr', hres⟩ := Option.bind_eq_some_iff.mp hdel
          obtain rfl := Option.some.inj hres
          have hmem : (m, pm) ∈ entries r := leftmost_mem hfirst
          have hown : y ∈ entries r → y.1 = m → y = (m, pm) := fun hy heq =>
            entry_unique hr hy hmem heq
          rw [entries_node, List.mem_append, List.mem_cons, ihr hr hr']
          constructor
          · rintro (hy | rfl | ⟨hy, _⟩)
            · exact ⟨.inl hy, hne (hleft hy)⟩
            · exact ⟨.inr (.inr hmem), hne' (hright hmem)⟩
            · exact ⟨.inr (.inr hy), hne' (hright hy)⟩
          · rintro ⟨hy | hy | hy, hnot⟩
            · exact .inl hy
            · exact absurd (hhere hy) hnot
            · by_cases hym : y.1 = m
              · exact .inr (.inl (hown hy hym))
              · exact .inr (.inr ⟨hy, hym⟩)
      · obtain ⟨r', hr', hentries⟩ := avlDelete_right_entries hkv hdel
        have hne : y.1 = k → y.1 ≠ v := fun heq => heq ▸ hkv.ne
        have hne' : y.1 < k → y.1 ≠ v := fun hlt => (hlt.trans hkv).ne
        rw [hentries, List.mem_append, List.mem_cons, ihr hr hr', entries_node, List.mem_append,
          List.mem_cons]
        grind

/-- A deletion from a search tree is right when it comes back. -/
theorem right_iff_safe (hsearch : IsSearchTree t) (hok : StoredOk t) (c : AvlCall α π) :
    c.Right t ↔ c.Safe t := by
  cases c with
  | insert v pl => exact Iff.rfl
  | delete v =>
      have hsorted := isSearchTree_iff.mp hsearch
      rw [AvlCall.Safe, ← avlDelete_ne_none_iff hok]
      constructor
      · rintro ⟨t', hdel, _⟩
        exact ⟨t', hdel⟩
      · rintro ⟨t', hdel⟩
        have ⟨hsorted', hvalues⟩ := avlDelete_values hsorted hdel
        refine ⟨t', hdel, hvalues, fun k => ?_⟩
        ext x
        rw [payload_avlFind hsorted', avlDelete_entries hsorted hdel]
        split
        · rename_i heq
          simp [heq]
        · rename_i hne
          rw [payload_avlFind hsorted]
          exact and_iff_left hne

/-- **All deletions of a run are right if and only if all are safe.** -/
theorem deleteRight_iff (calls : List (AvlCall α π)) :
    AllCalls avlStep AvlCall.Right (null : AvlNode α π) calls ↔
      AllCalls avlStep AvlCall.Safe (null : AvlNode α π) calls := by
  refine allCalls_iff_of_inv (fun t => IsSearchTree t ∧ StoredOk t)
    (fun t c ht => right_iff_safe ht.1 ht.2 c) ?_ ?_ calls
  swap
  · exact ⟨wellFormed_null.search, trivial⟩
  rintro t c t' ⟨hsearch, hok⟩ hsafe hstep
  have hsorted := isSearchTree_iff.mp hsearch
  cases c with
  | insert v pl =>
      exact ⟨isSearchTree_iff.mpr (avlInsert_values hsorted hstep).1, storedOk_avlInsert hok hstep⟩
  | delete v =>
      have ⟨u, hdel, hok', _⟩ := (avlDelete_safe hok).1 hsafe
      obtain rfl : u = t' := Option.some.inj (hdel.symm.trans hstep)
      exact ⟨isSearchTree_iff.mpr (avlDelete_values hsorted hstep).1, hok'⟩

end

/-- When 1 is deleted under 2, the right child 3 has no left child, and a null pointer is followed. -/
theorem delete_can_follow_null : ¬ AllCalls avlStep AvlCall.Right (null : AvlNode (Fin (2 ^ 32)) ℕ)
    [.insert 2 20, .insert 1 10, .insert 3 30, .insert 4 40, .delete 1] := by
  intro h
  have ⟨_, hdel, _⟩ := (h.2 _ rfl).2 _ rfl |>.2 _ rfl |>.2 _ rfl |>.1
  exact Option.some_ne_none _ hdel.symm

end Shaunos.Avl
