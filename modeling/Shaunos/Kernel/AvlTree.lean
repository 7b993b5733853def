import Mathlib
import Shaunos.Common.Run

/-!
# AVL trees

Reference: `Kernel/avltree.c`, `Include/kernel/avltree.h`.

A node has its value, its payload, its children and its stored height. The values are only compared, so
any linear order stands for `unsigned long`. A function that follows a null pointer returns nothing.

* `avlInsert_height`, `avlDelete_height` — insertion keeps a tree balanced with the right heights, and
  deletion does so exactly when it does right at every node on its way;
* `avlInsert_values`, `avlDelete_values` — what they do to the values;
* `wellFormed_iff` — every sequence of insertions and deletions.
-/

namespace Shaunos.Avl

/-! ## The code -/

/-- `struct avlnode`, or a null pointer. -/
inductive AvlNode (α π : Type*) where
  | null
  | node (val : α) (payload : π) (left right : AvlNode α π) (height : ℤ)

namespace AvlNode

variable {α π : Type*}

/-- `height`. -/
def height : AvlNode α π → ℤ
  | null => -1
  | node _ _ _ _ height => height

def left : AvlNode α π → AvlNode α π
  | null => null
  | node _ _ left _ _ => left

def right : AvlNode α π → AvlNode α π
  | null => null
  | node _ _ _ right _ => right

def val : AvlNode α π → Option α
  | null => none
  | node val _ _ _ _ => some val

def isNull : AvlNode α π → Bool
  | null => true
  | node .. => false

/-- A node whose height is set from those of its children. -/
def fresh (val : α) (payload : π) (left right : AvlNode α π) : AvlNode α π :=
  node val payload left right (max left.height right.height + 1)

/-- `p->height = Max(height(p->left), height(p->right)) + 1`. -/
def setHeight : AvlNode α π → AvlNode α π
  | null => null
  | node val payload left right _ => fresh val payload left right

end AvlNode

open AvlNode

section

variable {α π : Type*}

/-- `single_rotate_with_left`. -/
def singleRotateWithLeft : AvlNode α π → Option (AvlNode α π)
  | node val payload (node val₁ payload₁ left₁ right₁ _) right _ =>
      some (fresh val₁ payload₁ left₁ (fresh val payload right₁ right))
  | _ => none

/-- `single_rotate_with_right`. -/
def singleRotateWithRight : AvlNode α π → Option (AvlNode α π)
  | node val payload left (node val₁ payload₁ left₁ right₁ _) _ =>
      some (fresh val₁ payload₁ (fresh val payload left left₁) right₁)
  | _ => none

/-- `double_rotate_with_left`. -/
def doubleRotateWithLeft : AvlNode α π → Option (AvlNode α π)
  | null => none
  | node val payload left right height => do
      let left ← singleRotateWithRight left
      singleRotateWithLeft (node val payload left right height)

/-- `double_rotate_with_right`. -/
def doubleRotateWithRight : AvlNode α π → Option (AvlNode α π)
  | null => none
  | node val payload left right height => do
      let right ← singleRotateWithLeft right
      singleRotateWithRight (node val payload left right height)

/-- The node that the loop of `avl_delete` finds: the one farthest to the left. -/
def leftmost : AvlNode α π → Option (α × π)
  | null => none
  | node val payload left _ _ => (leftmost left).or (some (val, payload))

variable [LinearOrder α]

/-- `avl_insert`. If `kmalloc` finds no memory, `assert` stops the kernel. -/
def avlInsert (val : α) (payload : π) : AvlNode α π → Option (AvlNode α π)
  | null => some (node val payload null null 0)
  | node v pl left right h =>
      if val < v then do
        let left ← avlInsert val payload left
        let p := node v pl left right h
        if left.height - right.height = 2 then
          (if left.val.any (val < ·) then singleRotateWithLeft p
            else doubleRotateWithLeft p).map setHeight
        else return p.setHeight
      else if v < val then do
        let right ← avlInsert val payload right
        let p := node v pl left right h
        if right.height - left.height = 2 then
          (if right.val.any (· < val) then singleRotateWithRight p
            else doubleRotateWithRight p).map setHeight
        else return p.setHeight
      else some (node v pl left right h).setHeight

/-- `avl_delete`. -/
def avlDelete : (val : α) → AvlNode α π → Option (AvlNode α π)
  | _, null => some null
  | val, node v pl left right h =>
      if val < v then do
        let left ← avlDelete val left
        let p := node v pl left right h
        if right.height - left.height = 2 then
          if right.right.height > right.left.height then doubleRotateWithRight p
          else singleRotateWithRight p
        else return p.setHeight
      else if v < val then do
        let right ← avlDelete val right
        let p := node v pl left right h
        if left.height - right.height = 2 then
          if left.left.height > left.right.height then singleRotateWithLeft p
          else doubleRotateWithLeft p
        else return p.setHeight
      else if left.isNull then some right
      else
        match leftmost right with
        | none => some left
        | some (val, payload) => do
            -- the height of the node is not set, and it is not rotated
            let right ← avlDelete val right
            return node val payload left right h

end

/-! ## What a tree should be -/

section

variable {α π : Type*}

/-- The values of a tree from left to right. -/
def values : AvlNode α π → List α
  | null => []
  | node v _ l r _ => values l ++ v :: values r

/-- The values of a tree with their payloads, from left to right. -/
def entries : AvlNode α π → List (α × π)
  | null => []
  | node v pl l r _ => entries l ++ (v, pl) :: entries r

/-- The height of a tree. -/
def realHeight : AvlNode α π → ℤ
  | null => -1
  | node _ _ l r _ => max (realHeight l) (realHeight r) + 1

/-- Every stored height is the real one. -/
def HeightsRight : AvlNode α π → Prop
  | null => True
  | node v pl l r h => h = realHeight (node v pl l r h) ∧ HeightsRight l ∧ HeightsRight r

/-- The heights of the two children of a node differ by at most one. -/
def Balanced : AvlNode α π → Prop
  | null => True
  | node _ _ l r _ => |realHeight l - realHeight r| ≤ 1 ∧ Balanced l ∧ Balanced r

/-- The values on the left of a node are smaller than its own, and those on the right are larger. -/
def IsSearchTree [LinearOrder α] : AvlNode α π → Prop
  | null => True
  | node v _ l r _ => (∀ x ∈ values l, x < v) ∧ (∀ x ∈ values r, v < x) ∧ IsSearchTree l ∧ IsSearchTree r

/-- A search tree over its values that is balanced and has the right heights. -/
structure WellFormed [LinearOrder α] (t : AvlNode α π) : Prop where
  search : IsSearchTree t
  heights : HeightsRight t
  balanced : Balanced t

end

/-! ## When deletion does right -/

section

variable {α π : Type*} [LinearOrder α]

/-- The tree gets lower when `v` is deleted from it. -/
def Shrinks : (v : α) → AvlNode α π → Prop
  | _, null => False
  | v, node k _ l r _ =>
      if v < k then Shrinks v l ∧ r.height < l.height
      else if k < v then Shrinks v r ∧
        (l.height < r.height ∨ (r.height < l.height ∧ l.left.height ≠ l.right.height))
      else l.isNull = true ∨ r.isNull = true

/-- When the deletion of `v` does right. If the left child of a node gets too low, the children of the right
one have the same height. If the right child gets too low and the children of the left one have the same
height, then the inner one of them is not the lower on its left. If the value at the node is replaced and the
right child gets lower, then the left one had the same height. -/
def DeleteOk : (v : α) → AvlNode α π → Prop
  | _, null => True
  | v, node k _ l r _ =>
      if v < k then DeleteOk v l ∧
        (Shrinks v l → l.height < r.height → r.left.height = r.right.height)
      else if k < v then DeleteOk v r ∧
        (Shrinks v r → r.height < l.height → l.left.height = l.right.height →
          l.right.left.height + 1 = l.right.height)
      else
        ∀ m ∈ leftmost r, l.isNull = true ∨
          (DeleteOk m.1 r ∧ (Shrinks m.1 r → l.height = r.height))

instance Shrinks.decidable : ∀ (v : α) (t : AvlNode α π), Decidable (Shrinks v t)
  | _, null => isFalse id
  | v, node k _ l r _ =>
      have := Shrinks.decidable v l
      have := Shrinks.decidable v r
      inferInstanceAs (Decidable (if v < k then _ else if k < v then _ else _))

instance DeleteOk.decidable : ∀ (v : α) (t : AvlNode α π), Decidable (DeleteOk v t)
  | _, null => isTrue trivial
  | v, node k _ l r _ =>
      have := DeleteOk.decidable v l
      have := fun m => DeleteOk.decidable m r
      inferInstanceAs (Decidable (if v < k then _ else if k < v then _ else ∀ m ∈ leftmost r, _))

end

/-! ## Heights -/

section

variable {α π : Type*} {t t' l r : AvlNode α π} {v : α} {pl : π} {h : ℤ}

/-- Balance in terms of the stored heights. -/
def HeightInv : AvlNode α π → Prop
  | null => True
  | node _ _ l r h => HeightInv l ∧ HeightInv r ∧ h = max l.height r.height + 1 ∧ l.height ≤ r.height + 1 ∧
      r.height ≤ l.height + 1

@[simp] theorem heightInv_null : HeightInv (null : AvlNode α π) := trivial

@[simp] theorem heightInv_node : HeightInv (node v pl l r h) ↔ HeightInv l ∧ HeightInv r ∧
    h = max l.height r.height + 1 ∧ l.height ≤ r.height + 1 ∧ r.height ≤ l.height + 1 := Iff.rfl

@[simp] theorem heightInv_fresh : HeightInv (fresh v pl l r) ↔ HeightInv l ∧ HeightInv r ∧
    l.height ≤ r.height + 1 ∧ r.height ≤ l.height + 1 := by
  simp [fresh]

@[simp] theorem height_null : (null : AvlNode α π).height = -1 := rfl

@[simp] theorem height_node : (node v pl l r h).height = h := rfl

@[simp] theorem height_fresh : (fresh v pl l r).height = max l.height r.height + 1 := rfl

@[simp] theorem setHeight_node : (node v pl l r h).setHeight = fresh v pl l r := rfl

@[simp] theorem setHeight_fresh : (fresh v pl l r).setHeight = fresh v pl l r := rfl

theorem HeightInv.height_ge (ht : HeightInv t) : -1 ≤ t.height := by
  induction t with
  | null => simp
  | node v pl l r h ihl ihr =>
      have ⟨hl, hr, hh, _⟩ := ht
      have := ihl hl
      rw [height_node]
      omega

theorem HeightInv.height_eq (ht : HeightInv t) : t.height = realHeight t := by
  induction t with
  | null => rfl
  | node v pl l r h ihl ihr =>
      have ⟨hl, hr, hh, _⟩ := ht
      rw [height_node, realHeight, ← ihl hl, ← ihr hr, hh]

theorem heightInv_iff : HeightInv t ↔ HeightsRight t ∧ Balanced t := by
  induction t with
  | null => simp [HeightsRight, Balanced]
  | node v pl l r h ihl ihr =>
      rw [heightInv_node, HeightsRight, Balanced, realHeight, abs_le]
      constructor
      · rintro ⟨hl, hr, hh, hle, hge⟩
        have hel := hl.height_eq
        have her := hr.height_eq
        rw [hel, her] at hh hle hge
        exact ⟨⟨hh, (ihl.mp hl).1, (ihr.mp hr).1⟩, ⟨by omega, by omega⟩, (ihl.mp hl).2, (ihr.mp hr).2⟩
      · rintro ⟨⟨hh, hhl, hhr⟩, hb, hbl, hbr⟩
        have hl := ihl.mpr ⟨hhl, hbl⟩
        have hr := ihr.mpr ⟨hhr, hbr⟩
        rw [hl.height_eq, hr.height_eq]
        exact ⟨hl, hr, hh, by omega, by omega⟩

end


/-! ## Insertion -/

section

variable {α π : Type*} [LinearOrder α] {t t' l r : AvlNode α π} {v k : α} {pl p : π} {h : ℤ}

/-- How insertion changes the height. A tree that gets higher was empty, or it is now higher on the side
where the value went. -/
def Grown (v : α) (t t' : AvlNode α π) : Prop :=
  t'.height = t.height + 1 ∧ (t = null ∨ ∃ k, t'.val = some k ∧
    ((v < k ∧ t'.right.height < t'.left.height) ∨ (k < v ∧ t'.left.height < t'.right.height)))

/-- The left child of a node got too high. -/
theorem insertFix_left (hl : HeightInv l) (hr : HeightInv r) (hval : ∃ k, l.val = some k ∧
    ((v < k ∧ l.right.height < l.left.height) ∨ (k < v ∧ l.left.height < l.right.height)))
    (hlr : l.height = r.height + 2) :
    ∃ t', (if l.val.any (v < ·) then singleRotateWithLeft (node k p l r h)
        else doubleRotateWithLeft (node k p l r h)) = some t' ∧
      t'.setHeight = t' ∧ HeightInv t' ∧ t'.height = r.height + 2 := by
  have ⟨lk, hlk, hside⟩ := hval
  have hrow := hr.height_ge
  cases l with
  | null => simp [val] at hlk
  | node lk' lp ll lr lh =>
      obtain rfl : lk' = lk := by simpa [val] using hlk
      have ⟨hll, hlr', hlh, hle, hge⟩ := hl
      simp only [left, right, height_node] at hside hlr
      rcases hside with ⟨hlt, hside⟩ | ⟨hlt, hside⟩
      · rw [if_pos (by simpa [val] using hlt), singleRotateWithLeft]
        refine ⟨_, rfl, rfl, ?_, ?_⟩
        · simp only [heightInv_fresh, height_fresh]
          refine ⟨hll, ⟨hlr', hr, ?_, ?_⟩, ?_, ?_⟩ <;> omega
        · simp only [height_fresh]
          omega
      · rw [if_neg (by simpa [val] using hlt.le), doubleRotateWithLeft]
        cases lr with
        | null =>
            rw [height_null] at hside
            have := hll.height_ge
            omega
        | node xk xp xl xr xh =>
            have ⟨hxl, hxr, hxh, hxle, hxge⟩ := hlr'
            rw [height_node] at *
            refine ⟨_, rfl, rfl, ?_, ?_⟩
            · simp only [heightInv_fresh, height_fresh]
              refine ⟨⟨hll, hxl, ?_, ?_⟩, ⟨hxr, hr, ?_, ?_⟩, ?_, ?_⟩ <;> omega
            · simp only [height_fresh]
              omega

/-- The right child of a node got too high. -/
theorem insertFix_right (hl : HeightInv l) (hr : HeightInv r) (hval : ∃ k, r.val = some k ∧
    ((v < k ∧ r.right.height < r.left.height) ∨ (k < v ∧ r.left.height < r.right.height)))
    (hlr : r.height = l.height + 2) :
    ∃ t', (if r.val.any (· < v) then singleRotateWithRight (node k p l r h)
        else doubleRotateWithRight (node k p l r h)) = some t' ∧
      t'.setHeight = t' ∧ HeightInv t' ∧ t'.height = l.height + 2 := by
  have ⟨rk, hrk, hside⟩ := hval
  have hlow := hl.height_ge
  cases r with
  | null => simp [val] at hrk
  | node rk' rp rl rr rh =>
      obtain rfl : rk' = rk := by simpa [val] using hrk
      have ⟨hrl, hrr, hrh, hle, hge⟩ := hr
      simp only [left, right, height_node] at hside hlr
      rcases hside with ⟨hlt, hside⟩ | ⟨hlt, hside⟩
      · rw [if_neg (by simpa [val] using hlt.le), doubleRotateWithRight]
        cases rl with
        | null =>
            rw [height_null] at hside
            have := hrr.height_ge
            omega
        | node xk xp xl xr xh =>
            have ⟨hxl, hxr, hxh, hxle, hxge⟩ := hrl
            rw [height_node] at *
            refine ⟨_, rfl, rfl, ?_, ?_⟩
            · simp only [heightInv_fresh, height_fresh]
              refine ⟨⟨hl, hxl, ?_, ?_⟩, ⟨hxr, hrr, ?_, ?_⟩, ?_, ?_⟩ <;> omega
            · simp only [height_fresh]
              omega
      · rw [if_pos (by simpa [val] using hlt), singleRotateWithRight]
        refine ⟨_, rfl, rfl, ?_, ?_⟩
        · simp only [heightInv_fresh, height_fresh]
          refine ⟨⟨hl, hrl, ?_, ?_⟩, hrr, ?_, ?_⟩ <;> omega
        · simp only [height_fresh]
          omega

/-- Insertion keeps the heights right and the tree balanced. -/
theorem avlInsert_height (v : α) (pl : π) (ht : HeightInv t) : ∃ t', avlInsert v pl t = some t' ∧
    HeightInv t' ∧ (t'.height = t.height ∨ Grown v t t') := by
  induction t with
  | null => exact ⟨_, rfl, by simp, .inr ⟨rfl, .inl rfl⟩⟩
  | node k p l r h ihl ihr =>
      have ⟨hl, hr, hh, hle, hge⟩ := ht
      have hlow := hl.height_ge
      have hrow := hr.height_ge
      rw [avlInsert]
      split
      · rename_i hvk
        have ⟨l', hl', hinv, hgrow⟩ := ihl hl
        rw [hl']
        dsimp only [Option.bind_eq_bind, Option.bind_some]
        have hh' : l'.height = l.height ∨ l'.height = l.height + 1 := hgrow.imp_right And.left
        split
        · rename_i hdiff
          have hval : ∃ k, l'.val = some k ∧ ((v < k ∧ l'.right.height < l'.left.height) ∨
              (k < v ∧ l'.left.height < l'.right.height)) := by
            rcases hgrow with hsame | ⟨hup, rfl | hval⟩
            · omega
            · rw [height_null] at *
              omega
            · exact hval
          have ⟨t', hfix, hset, hinv', hheight⟩ := insertFix_left (k := k) (p := p) (h := h) hinv hr
            hval (by omega)
          rw [hfix]
          refine ⟨t', congrArg some hset, hinv', .inl ?_⟩
          rw [height_node]
          omega
        · refine ⟨_, rfl, ?_, ?_⟩
          · rw [setHeight_node, heightInv_fresh]
            exact ⟨hinv, hr, by omega, by omega⟩
          · rw [Grown, setHeight_node, height_fresh, height_node]
            by_cases hup : max l'.height r.height + 1 = h
            · exact .inl hup
            · refine .inr ⟨by omega, .inr ⟨k, rfl, .inl ⟨hvk, ?_⟩⟩⟩
              change r.height < l'.height
              omega
      split
      · rename_i hkv
        have ⟨r', hr', hinv, hgrow⟩ := ihr hr
        rw [hr']
        dsimp only [Option.bind_eq_bind, Option.bind_some]
        have hh' : r'.height = r.height ∨ r'.height = r.height + 1 := hgrow.imp_right And.left
        split
        · rename_i hdiff
          have hval : ∃ k, r'.val = some k ∧ ((v < k ∧ r'.right.height < r'.left.height) ∨
              (k < v ∧ r'.left.height < r'.right.height)) := by
            rcases hgrow with hsame | ⟨hup, rfl | hval⟩
            · omega
            · rw [height_null] at *
              omega
            · exact hval
          have ⟨t', hfix, hset, hinv', hheight⟩ := insertFix_right (k := k) (p := p) (h := h) hl hinv
            hval (by omega)
          rw [hfix]
          refine ⟨t', congrArg some hset, hinv', .inl ?_⟩
          rw [height_node]
          omega
        · refine ⟨_, rfl, ?_, ?_⟩
          · rw [setHeight_node, heightInv_fresh]
            exact ⟨hl, hinv, by omega, by omega⟩
          · rw [Grown, setHeight_node, height_fresh, height_node]
            by_cases hup : max l.height r'.height + 1 = h
            · exact .inl hup
            · refine .inr ⟨by omega, .inr ⟨k, rfl, .inr ⟨hkv, ?_⟩⟩⟩
              change l.height < r'.height
              omega
      · refine ⟨_, rfl, ?_, .inl ?_⟩
        · rw [setHeight_node, heightInv_fresh]
          exact ⟨hl, hr, hle, hge⟩
        · rw [setHeight_node, height_fresh, height_node, hh]

end


/-! ## Search trees -/

section

variable {α π : Type*} {t t' l r : AvlNode α π} {v k : α} {pl p : π} {h : ℤ}

@[simp] theorem values_null : values (null : AvlNode α π) = [] := rfl

@[simp] theorem values_node : values (node v pl l r h) = values l ++ v :: values r := rfl

@[simp] theorem values_fresh : values (fresh v pl l r) = values l ++ v :: values r := rfl

@[simp] theorem entries_null : entries (null : AvlNode α π) = [] := rfl

@[simp] theorem entries_node : entries (node v pl l r h) = entries l ++ (v, pl) :: entries r := rfl

@[simp] theorem entries_fresh : entries (fresh v pl l r) = entries l ++ (v, pl) :: entries r := rfl

@[simp] theorem entries_setHeight : entries t.setHeight = entries t := by
  cases t <;> rfl

theorem values_eq_entries : values t = (entries t).map Prod.fst := by
  induction t with
  | null => rfl
  | node k p l r h ihl ihr => rw [values_node, entries_node, List.map_append, List.map_cons, ← ihl, ← ihr]

/-- A rotation does not change the entries. -/
theorem entries_singleRotateWithLeft (hrot : singleRotateWithLeft t = some t') :
    entries t' = entries t := by
  match t, hrot with
  | node _ _ (node ..) _ _, hrot =>
      obtain rfl := Option.some.inj hrot
      simp

theorem entries_singleRotateWithRight (hrot : singleRotateWithRight t = some t') :
    entries t' = entries t := by
  match t, hrot with
  | node _ _ _ (node ..) _, hrot =>
      obtain rfl := Option.some.inj hrot
      simp

theorem entries_doubleRotateWithLeft (hrot : doubleRotateWithLeft t = some t') :
    entries t' = entries t := by
  cases t with
  | null => simp [doubleRotateWithLeft] at hrot
  | node k p l r h =>
      have ⟨l', hl', hrot'⟩ := Option.bind_eq_some_iff.mp hrot
      rw [entries_singleRotateWithLeft hrot', entries_node, entries_node,
        entries_singleRotateWithRight hl']

theorem entries_doubleRotateWithRight (hrot : doubleRotateWithRight t = some t') :
    entries t' = entries t := by
  cases t with
  | null => simp [doubleRotateWithRight] at hrot
  | node k p l r h =>
      have ⟨r', hr', hrot'⟩ := Option.bind_eq_some_iff.mp hrot
      rw [entries_singleRotateWithRight hrot', entries_node, entries_node,
        entries_singleRotateWithLeft hr']

theorem values_of_entries {a b : AvlNode α π} (h : entries t = entries a ++ (k, p) :: entries b) :
    values t = values a ++ k :: values b := by
  rw [values_eq_entries, h, List.map_append, List.map_cons, ← values_eq_entries, ← values_eq_entries]

/-- The first of the values. -/
theorem leftmost_eq : (leftmost t).map Prod.fst = (values t).head? := by
  induction t with
  | null => rfl
  | node k p l r h ihl _ =>
      rw [leftmost, values_node, List.head?_append, ← ihl]
      cases leftmost l <;> rfl

variable [LinearOrder α]

/-- A tree is a search tree if its values are sorted. -/
theorem isSearchTree_iff : IsSearchTree t ↔ (values t).Pairwise (· < ·) := by
  induction t with
  | null => simp [IsSearchTree]
  | node k p l r h ihl ihr =>
      rw [IsSearchTree, ihl, ihr, values_node, List.pairwise_append, List.pairwise_cons]
      constructor
      · rintro ⟨hlt, hgt, hl, hr⟩
        refine ⟨hl, ⟨hgt, hr⟩, ?_⟩
        intro a ha b hb
        rcases List.mem_cons.mp hb with rfl | hb
        · exact hlt a ha
        · exact (hlt a ha).trans (hgt b hb)
      · rintro ⟨hl, ⟨hgt, hr⟩, hall⟩
        exact ⟨fun a ha => hall a ha k List.mem_cons_self, hgt, hl, hr⟩

/-- Where two lists of values are put around a new one. -/
theorem pairwise_around {a b : List α} : (a ++ k :: b).Pairwise (· < ·) ↔
    a.Pairwise (· < ·) ∧ b.Pairwise (· < ·) ∧ (∀ x ∈ a, x < k) ∧ ∀ x ∈ b, k < x := by
  rw [List.pairwise_append, List.pairwise_cons]
  constructor
  · rintro ⟨ha, ⟨hgt, hb⟩, hall⟩
    exact ⟨ha, hb, fun x hx => hall x hx k List.mem_cons_self, hgt⟩
  · rintro ⟨ha, hb, hlt, hgt⟩
    refine ⟨ha, ⟨hgt, hb⟩, ?_⟩
    intro x hx y hy
    rcases List.mem_cons.mp hy with rfl | hy
    · exact hlt x hx
    · exact (hlt x hx).trans (hgt y hy)

/-- Insertion below a node changes the entries on one side of it. -/
theorem avlInsert_left (hvk : v < k) (hins : avlInsert v pl (node k p l r h) = some t') :
    ∃ l', avlInsert v pl l = some l' ∧ entries t' = entries l' ++ (k, p) :: entries r := by
  rw [avlInsert, if_pos hvk] at hins
  have ⟨l', hl', hfix⟩ := Option.bind_eq_some_iff.mp hins
  refine ⟨l', hl', ?_⟩
  -- neither a rotation nor the new height changes the entries
  dsimp only at hfix
  split at hfix
  · have ⟨q, hrot, hq⟩ := Option.map_eq_some_iff.mp hfix
    rw [← hq, entries_setHeight]
    split at hrot
    · rw [entries_singleRotateWithLeft hrot, entries_node]
    · rw [entries_doubleRotateWithLeft hrot, entries_node]
  · obtain rfl := Option.some.inj hfix
    rfl

theorem avlInsert_right (hkv : k < v) (hins : avlInsert v pl (node k p l r h) = some t') :
    ∃ r', avlInsert v pl r = some r' ∧ entries t' = entries l ++ (k, p) :: entries r' := by
  rw [avlInsert, if_neg hkv.not_gt, if_pos hkv] at hins
  have ⟨r', hr', hfix⟩ := Option.bind_eq_some_iff.mp hins
  refine ⟨r', hr', ?_⟩
  dsimp only at hfix
  split at hfix
  · have ⟨q, hrot, hq⟩ := Option.map_eq_some_iff.mp hfix
    rw [← hq, entries_setHeight]
    split at hrot
    · rw [entries_singleRotateWithRight hrot, entries_node]
    · rw [entries_doubleRotateWithRight hrot, entries_node]
  · obtain rfl := Option.some.inj hfix
    rfl

/-- Deletion below a node changes the entries on one side of it. -/
theorem avlDelete_left_entries (hvk : v < k) (hdel : avlDelete v (node k p l r h) = some t') :
    ∃ l', avlDelete v l = some l' ∧ entries t' = entries l' ++ (k, p) :: entries r := by
  rw [avlDelete, if_pos hvk] at hdel
  have ⟨l', hl', hfix⟩ := Option.bind_eq_some_iff.mp hdel
  refine ⟨l', hl', ?_⟩
  dsimp only at hfix
  split at hfix
  · split at hfix
    · rw [entries_doubleRotateWithRight hfix, entries_node]
    · rw [entries_singleRotateWithRight hfix, entries_node]
  · obtain rfl := Option.some.inj hfix
    rfl

theorem avlDelete_right_entries (hkv : k < v) (hdel : avlDelete v (node k p l r h) = some t') :
    ∃ r', avlDelete v r = some r' ∧ entries t' = entries l ++ (k, p) :: entries r' := by
  rw [avlDelete, if_neg hkv.not_gt, if_pos hkv] at hdel
  have ⟨r', hr', hfix⟩ := Option.bind_eq_some_iff.mp hdel
  refine ⟨r', hr', ?_⟩
  dsimp only at hfix
  split at hfix
  · split at hfix
    · rw [entries_singleRotateWithLeft hfix, entries_node]
    · rw [entries_doubleRotateWithLeft hfix, entries_node]
  · obtain rfl := Option.some.inj hfix
    rfl

/-- What insertion does to the values. -/
theorem avlInsert_values (ht : (values t).Pairwise (· < ·)) (hins : avlInsert v pl t = some t') :
    (values t').Pairwise (· < ·) ∧ ∀ x, x ∈ values t' ↔ x ∈ values t ∨ x = v := by
  induction t generalizing t' with
  | null =>
      obtain rfl := Option.some.inj hins
      simp
  | node k p l r h ihl ihr =>
      have ⟨hl, hr, hlt, hgt⟩ := pairwise_around.mp ht
      rcases lt_trichotomy v k with hvk | rfl | hkv
      · have ⟨l', hl', hentries⟩ := avlInsert_left hvk hins
        have ⟨hsorted, hmem⟩ := ihl hl hl'
        rw [values_of_entries hentries]
        refine ⟨pairwise_around.mpr ⟨hsorted, hr, ?_, hgt⟩, ?_⟩
        · intro x hx
          rcases (hmem x).mp hx with hx | rfl
          · exact hlt x hx
          · exact hvk
        · intro x
          simp only [values_node, List.mem_append, List.mem_cons, hmem]
          tauto
      · rw [avlInsert, if_neg (lt_irrefl v), if_neg (lt_irrefl v)] at hins
        obtain rfl := Option.some.inj hins
        refine ⟨ht, ?_⟩
        intro x
        simp only [setHeight_node, values_fresh, values_node, List.mem_append, List.mem_cons]
        tauto
      · have ⟨r', hr', hentries⟩ := avlInsert_right hkv hins
        have ⟨hsorted, hmem⟩ := ihr hr hr'
        rw [values_of_entries hentries]
        refine ⟨pairwise_around.mpr ⟨hl, hsorted, hlt, ?_⟩, ?_⟩
        · intro x hx
          rcases (hmem x).mp hx with hx | rfl
          · exact hgt x hx
          · exact hkv
        · intro x
          simp only [values_node, List.mem_append, List.mem_cons, hmem]
          tauto

/-- What deletion does to the values. -/
theorem avlDelete_values (ht : (values t).Pairwise (· < ·)) (hdel : avlDelete v t = some t') :
    (values t').Pairwise (· < ·) ∧ ∀ x, x ∈ values t' ↔ x ∈ values t ∧ x ≠ v := by
  induction t generalizing v t' with
  | null =>
      obtain rfl := Option.some.inj hdel
      simp
  | node k p l r h ihl ihr =>
      have ⟨hl, hr, hlt, hgt⟩ := pairwise_around.mp ht
      rcases lt_trichotomy v k with hvk | rfl | hkv
      · have ⟨l', hl', hentries⟩ := avlDelete_left_entries hvk hdel
        have ⟨hsorted, hmem⟩ := ihl hl hl'
        rw [values_of_entries hentries]
        refine ⟨pairwise_around.mpr ⟨hsorted, hr, fun x hx => hlt x ((hmem x).mp hx).1, hgt⟩, ?_⟩
        intro x
        have hk : k ≠ v := hvk.ne'
        have hx : x ∈ values r → x ≠ v := fun hx => (hvk.trans (hgt x hx)).ne'
        simp only [values_node, List.mem_append, List.mem_cons, hmem]
        constructor
        · rintro (⟨hx, hne⟩ | rfl | hxr)
          · exact ⟨.inl hx, hne⟩
          · exact ⟨.inr (.inl rfl), hk⟩
          · exact ⟨.inr (.inr hxr), hx hxr⟩
        · rintro ⟨hx | rfl | hxr, hne⟩
          · exact .inl ⟨hx, hne⟩
          · exact .inr (.inl rfl)
          · exact .inr (.inr hxr)
      · rw [avlDelete, if_neg (lt_irrefl v), if_neg (lt_irrefl v)] at hdel
        have hltv : ∀ x ∈ values l, x ≠ v := fun x hx => (hlt x hx).ne
        have hgtv : ∀ x ∈ values r, x ≠ v := fun x hx => (hgt x hx).ne'
        split at hdel
        · rename_i hnull
          obtain rfl : r = t' := Option.some.inj hdel
          cases l with
          | node => simp [isNull] at hnull
          | null =>
              refine ⟨hr, fun x => ?_⟩
              simp only [values_node, values_null, List.nil_append, List.mem_cons]
              exact ⟨fun hx => ⟨.inr hx, hgtv x hx⟩, fun ⟨hx, hne⟩ => hx.resolve_left hne⟩
        split at hdel
        · rename_i hnone
          obtain rfl : l = t' := Option.some.inj hdel
          have hnil : values r = [] := by
            rw [← List.head?_eq_none_iff, ← leftmost_eq, hnone, Option.map_none]
          refine ⟨hl, fun x => ?_⟩
          simp only [values_node, hnil, List.mem_append, List.mem_singleton]
          exact ⟨fun hx => ⟨.inl hx, hltv x hx⟩, fun ⟨hx, hne⟩ => hx.resolve_right hne⟩
        · -- the first value on the right takes the place of `v`
          rename_i m pm hfirst
          have ⟨r', hr', hres⟩ := Option.bind_eq_some_iff.mp hdel
          obtain rfl := Option.some.inj hres
          have ⟨hsorted, hmem⟩ := ihr hr hr'
          have hhead : (values r).head? = some m := by
            rw [← leftmost_eq, hfirst, Option.map_some]
          have ⟨rest, hrest⟩ := List.head?_eq_some_iff.mp hhead
          have hm : m ∈ values r := hrest ▸ List.mem_cons_self
          have hmin : ∀ x ∈ values r', m < x := by
            intro x hx
            have ⟨hxr, hne⟩ := (hmem x).mp hx
            rw [hrest] at hr hxr
            rcases List.mem_cons.mp hxr with rfl | hxr
            · exact absurd rfl hne
            · exact (List.pairwise_cons.mp hr).1 x hxr
          refine ⟨pairwise_around.mpr ⟨hl, hsorted, ?_, hmin⟩, ?_⟩
          · exact fun x hx => (hlt x hx).trans (hgt m hm)
          · intro x
            simp only [values_node, List.mem_append, List.mem_cons, hmem]
            constructor
            · rintro (hx | rfl | ⟨hx, -⟩)
              · exact ⟨.inl hx, hltv x hx⟩
              · exact ⟨.inr (.inr hm), hgtv x hm⟩
              · exact ⟨.inr (.inr hx), hgtv x hx⟩
            · rintro ⟨hx | rfl | hx, hne⟩
              · exact .inl hx
              · exact absurd rfl hne
              · by_cases hxm : x = m
                · exact .inr (.inl hxm)
                · exact .inr (.inr ⟨hx, hxm⟩)
      · have ⟨r', hr', hentries⟩ := avlDelete_right_entries hkv hdel
        have ⟨hsorted, hmem⟩ := ihr hr hr'
        rw [values_of_entries hentries]
        refine ⟨pairwise_around.mpr ⟨hl, hsorted, hlt, fun x hx => hgt x ((hmem x).mp hx).1⟩, ?_⟩
        intro x
        have hk : k ≠ v := hkv.ne
        have hx : x ∈ values l → x ≠ v := fun hx => ((hlt x hx).trans hkv).ne
        simp only [values_node, List.mem_append, List.mem_cons, hmem]
        constructor
        · rintro (hxl | rfl | ⟨hx, hne⟩)
          · exact ⟨.inl hxl, hx hxl⟩
          · exact ⟨.inr (.inl rfl), hk⟩
          · exact ⟨.inr (.inr hx), hne⟩
        · rintro ⟨hxl | rfl | hx, hne⟩
          · exact .inl hxl
          · exact .inr (.inl rfl)
          · exact .inr (.inr ⟨hx, hne⟩)

end

/-! ## Deletion -/

section

variable {α π : Type*} {t' l r : AvlNode α π} {k : α} {p : π} {h : ℤ}

theorem isNull_iff : l.isNull = true ↔ l = null := by
  cases l <;> simp [isNull]

theorem leftmost_eq_none : leftmost r = none ↔ r = null := by
  cases r with
  | null => simp [leftmost]
  | node k p l r h => cases hl : leftmost l <;> simp [leftmost, hl]

/-- What `avl_delete` does when the left child `l` of a node got too low. -/
theorem deleteFix_left {rk : α} {rp : π} {rl rr : AvlNode α π} {rh : ℤ}
    (hr : HeightInv (node rk rp rl rr rh)) (hfix :
      (if rr.height > rl.height then doubleRotateWithRight (node k p l (node rk rp rl rr rh) h)
        else singleRotateWithRight (node k p l (node rk rp rl rr rh) h)) = some t')
    (hinv : HeightInv t') : HeightInv l ∧
      (rh = l.height + 2 → rl.height = rr.height ∧ t'.height = rh + 1) := by
  have ⟨hrl, hrr, hrh', hle, hge⟩ := hr
  split at hfix
  · -- the node comes out unbalanced
    cases rl with
    | null => simp [doubleRotateWithRight, singleRotateWithLeft] at hfix
    | node xk xp xl xr xh =>
        obtain rfl := Option.some.inj hfix
        have ⟨hxl, hxr, hxh, hxle, hxge⟩ := hrl
        simp only [heightInv_fresh, height_fresh, height_node] at *
        exact ⟨hinv.1.1, by omega⟩
  · obtain rfl := Option.some.inj hfix
    simp only [heightInv_fresh, height_fresh] at *
    exact ⟨hinv.1.1, by omega⟩

theorem deleteFix_left_ok {rk : α} {rp : π} {rl rr : AvlNode α π} {rh : ℤ} (hl : HeightInv l)
    (hr : HeightInv (node rk rp rl rr rh)) (hrh : rh = l.height + 2) (heq : rl.height = rr.height) :
    ∃ t', (if rr.height > rl.height then doubleRotateWithRight (node k p l (node rk rp rl rr rh) h)
      else singleRotateWithRight (node k p l (node rk rp rl rr rh) h)) = some t' ∧ HeightInv t' := by
  have ⟨hrl, hrr, hrh', hle, hge⟩ := hr
  rw [if_neg (by omega)]
  refine ⟨_, rfl, ?_⟩
  simp only [heightInv_fresh, height_fresh]
  refine ⟨⟨hl, hrl, ?_, ?_⟩, hrr, ?_, ?_⟩ <;> omega

/-- What `avl_delete` does when the right child `r` of a node got too low. -/
theorem deleteFix_right {lk : α} {lp : π} {ll lr : AvlNode α π} {lh : ℤ}
    (hl : HeightInv (node lk lp ll lr lh)) (hfix :
      (if ll.height > lr.height then singleRotateWithLeft (node k p (node lk lp ll lr lh) r h)
        else doubleRotateWithLeft (node k p (node lk lp ll lr lh) r h)) = some t')
    (hinv : HeightInv t') : HeightInv r ∧
      (lh = r.height + 2 → (ll.height = lr.height →
        lr.left.height + 1 = lr.height ∧ t'.height = lh + 1) ∧
        (ll.height ≠ lr.height → t'.height = lh)) := by
  have ⟨hll, hlr, hlh', hle, hge⟩ := hl
  split at hfix
  · rename_i hgt
    obtain rfl := Option.some.inj hfix
    simp only [heightInv_fresh, height_fresh] at *
    exact ⟨hinv.2.1.2.1, by omega⟩
  · cases lr with
    | null => simp [doubleRotateWithLeft, singleRotateWithRight] at hfix
    | node xk xp xl xr xh =>
        obtain rfl := Option.some.inj hfix
        have ⟨hxl, hxr, hxh, hxle, hxge⟩ := hlr
        simp only [heightInv_fresh, height_fresh, height_node, left] at *
        exact ⟨hinv.2.1.2.1, by omega⟩

theorem deleteFix_right_ok {lk : α} {lp : π} {ll lr : AvlNode α π} {lh : ℤ} (hr : HeightInv r)
    (hl : HeightInv (node lk lp ll lr lh)) (hlh : lh = r.height + 2)
    (hinner : ll.height = lr.height → lr.left.height + 1 = lr.height) :
    ∃ t', (if ll.height > lr.height then singleRotateWithLeft (node k p (node lk lp ll lr lh) r h)
      else doubleRotateWithLeft (node k p (node lk lp ll lr lh) r h)) = some t' ∧ HeightInv t' := by
  have ⟨hll, hlr, hlh', hle, hge⟩ := hl
  have hrow := hr.height_ge
  split
  · refine ⟨_, rfl, ?_⟩
    simp only [heightInv_fresh, height_fresh]
    refine ⟨hll, ⟨hlr, hr, ?_, ?_⟩, ?_, ?_⟩ <;> omega
  · cases lr with
    | null =>
        have := hll.height_ge
        rw [height_null] at *
        omega
    | node xk xp xl xr xh =>
        have ⟨hxl, hxr, hxh, hxle, hxge⟩ := hlr
        simp only [height_node, left] at *
        refine ⟨_, rfl, ?_⟩
        simp only [heightInv_fresh, height_fresh]
        refine ⟨⟨hll, hxl, ?_, ?_⟩, ⟨hxr, hr, ?_, ?_⟩, ?_, ?_⟩ <;> omega

variable [LinearOrder α] {t : AvlNode α π} {v : α}

/-- Deletion keeps the heights right and the tree balanced. -/
def Deletes (v : α) (t t' : AvlNode α π) : Prop :=
  avlDelete v t = some t' ∧ HeightInv t'

/-- What is left of a tree has the height that `Shrinks` says. -/
def Lowers (v : α) (t t' : AvlNode α π) : Prop :=
  (Shrinks v t → t'.height = t.height - 1) ∧ (¬ Shrinks v t → t'.height = t.height)

/-- A node whose left child loses a value. -/
theorem avlDelete_left (hvk : v < k) (ht : HeightInv (node k p l r h))
    (ih : (∀ l', Deletes v l l' → Lowers v l l' ∧ DeleteOk v l) ∧
      (DeleteOk v l → ∃ l', Deletes v l l')) :
    (∀ t', Deletes v (node k p l r h) t' →
        Lowers v (node k p l r h) t' ∧ DeleteOk v (node k p l r h)) ∧
      (DeleteOk v (node k p l r h) → ∃ t', Deletes v (node k p l r h) t') := by
  have ⟨hl, hr, hh, hle, hge⟩ := ht
  simp only [Deletes, Lowers, DeleteOk, Shrinks, avlDelete, if_pos hvk] at *
  constructor
  · rintro t' ⟨hdel, hinv⟩
    have ⟨l', hl', hfix⟩ := Option.bind_eq_some_iff.mp hdel
    split at hfix
    · rename_i hdiff
      cases r with
      | null =>
          simp [AvlNode.right, AvlNode.left, singleRotateWithRight] at hfix
      | node rk rp rl rr rh =>
          have ⟨hl'inv, hres⟩ := deleteFix_left hr hfix hinv
          have ⟨⟨hlow, hsame⟩, hok⟩ := ih.1 l' ⟨hl', hl'inv⟩
          simp only [height_node] at *
          have ⟨heq, hheight⟩ := hres (by omega)
          refine ⟨⟨fun hs => by omega, fun _ => ?_⟩, hok, fun _ _ => heq⟩
          by_cases hs : Shrinks v l
          · have := hlow hs
            omega
          · have := hsame hs
            omega
    · rename_i hdiff
      obtain rfl := Option.some.inj hfix
      rw [setHeight_node, heightInv_fresh] at hinv
      have ⟨⟨hlow, hsame⟩, hok⟩ := ih.1 l' ⟨hl', hinv.1⟩
      rw [setHeight_node, height_fresh, height_node]
      refine ⟨⟨?_, ?_⟩, hok, ?_⟩
      · rintro ⟨hs, hlt⟩
        have := hlow hs
        omega
      · intro hns
        by_cases hs : Shrinks v l
        · have := hlow hs
          have : ¬ r.height < l.height := fun hlt => hns ⟨hs, hlt⟩
          omega
        · have := hsame hs
          omega
      · intro hs hlt
        have := hlow hs
        omega
  · rintro ⟨hok, hcond⟩
    have ⟨l', hl', hinv⟩ := ih.2 hok
    have ⟨⟨hlow, hsame⟩, _⟩ := ih.1 l' ⟨hl', hinv⟩
    have hl'h : (Shrinks v l ∧ l'.height = l.height - 1) ∨ l'.height = l.height := by
      by_cases hs : Shrinks v l
      · exact .inl ⟨hs, hlow hs⟩
      · exact .inr (hsame hs)
    rw [hl', Option.bind_eq_bind, Option.bind_some]
    split
    · rename_i hdiff
      have hs : Shrinks v l := by
        rcases hl'h with hs | hs
        · exact hs.1
        · omega
      have hcond := hcond hs (by have := hlow hs; omega)
      cases r with
      | null =>
          have := hinv.height_ge
          rw [height_null] at hdiff
          omega
      | node rk rp rl rr rh => exact deleteFix_left_ok hinv hr (by rw [height_node] at hdiff; omega) hcond
    · refine ⟨_, rfl, ?_⟩
      rw [setHeight_node, heightInv_fresh]
      exact ⟨hinv, hr, by omega, by omega⟩

/-- A node whose right child loses a value. -/
theorem avlDelete_right (hkv : k < v) (ht : HeightInv (node k p l r h))
    (ih : (∀ r', Deletes v r r' → Lowers v r r' ∧ DeleteOk v r) ∧
      (DeleteOk v r → ∃ r', Deletes v r r')) :
    (∀ t', Deletes v (node k p l r h) t' →
        Lowers v (node k p l r h) t' ∧ DeleteOk v (node k p l r h)) ∧
      (DeleteOk v (node k p l r h) → ∃ t', Deletes v (node k p l r h) t') := by
  have ⟨hl, hr, hh, hle, hge⟩ := ht
  simp only [Deletes, Lowers, DeleteOk, Shrinks, avlDelete, if_neg (not_lt.mpr hkv.le), if_pos hkv] at *
  constructor
  · rintro t' ⟨hdel, hinv⟩
    have ⟨r', hr', hfix⟩ := Option.bind_eq_some_iff.mp hdel
    split at hfix
    · rename_i hdiff
      cases l with
      | null =>
          simp [AvlNode.right, AvlNode.left, doubleRotateWithLeft, singleRotateWithRight] at hfix
      | node lk lp ll lr lh =>
          have ⟨hr'inv, hres⟩ := deleteFix_right hl hfix hinv
          have ⟨⟨hlow, hsame⟩, hok⟩ := ih.1 r' ⟨hr', hr'inv⟩
          simp only [height_node, left, right] at *
          have ⟨heq, hne⟩ := hres (by omega)
          have hs : Shrinks v r := by
            by_contra hs
            have := hsame hs
            omega
          have := hlow hs
          refine ⟨⟨?_, ?_⟩, hok, fun _ _ hll => (heq hll).1⟩
          · rintro ⟨-, hlt | ⟨-, hll⟩⟩
            · omega
            · have := hne hll
              omega
          · intro hns
            by_cases hll : ll.height = lr.height
            · have := (heq hll).2
              omega
            · exact absurd ⟨hs, .inr ⟨by omega, hll⟩⟩ hns
    · rename_i hdiff
      obtain rfl := Option.some.inj hfix
      rw [setHeight_node, heightInv_fresh] at hinv
      have ⟨⟨hlow, hsame⟩, hok⟩ := ih.1 r' ⟨hr', hinv.2.1⟩
      rw [setHeight_node, height_fresh, height_node]
      refine ⟨⟨?_, ?_⟩, hok, ?_⟩
      · rintro ⟨hs, hlt | ⟨hlt, -⟩⟩
        · have := hlow hs
          omega
        · have := hlow hs
          omega
      · intro hns
        by_cases hs : Shrinks v r
        · have := hlow hs
          have : ¬ l.height < r.height := fun hlt => hns ⟨hs, .inl hlt⟩
          omega
        · have := hsame hs
          omega
      · intro hs hlt
        have := hlow hs
        omega
  · rintro ⟨hok, hcond⟩
    have ⟨r', hr', hinv⟩ := ih.2 hok
    have ⟨⟨hlow, hsame⟩, _⟩ := ih.1 r' ⟨hr', hinv⟩
    have hr'h : (Shrinks v r ∧ r'.height = r.height - 1) ∨ r'.height = r.height := by
      by_cases hs : Shrinks v r
      · exact .inl ⟨hs, hlow hs⟩
      · exact .inr (hsame hs)
    rw [hr', Option.bind_eq_bind, Option.bind_some]
    split
    · rename_i hdiff
      have hs : Shrinks v r := by
        rcases hr'h with hs | hs
        · exact hs.1
        · omega
      have hcond := hcond hs (by have := hlow hs; omega)
      cases l with
      | null =>
          have := hinv.height_ge
          rw [height_null] at hdiff
          omega
      | node lk lp ll lr lh =>
          exact deleteFix_right_ok hinv hl (by rw [height_node] at hdiff; omega) hcond
    · refine ⟨_, rfl, ?_⟩
      rw [setHeight_node, heightInv_fresh]
      exact ⟨hl, hinv, by omega, by omega⟩

/-- Deletion keeps the heights right and the tree balanced exactly when it does right. -/
theorem avlDelete_height (ht : HeightInv t) :
    (∀ t', Deletes v t t' → Lowers v t t' ∧ DeleteOk v t) ∧ (DeleteOk v t → ∃ t', Deletes v t t') := by
  induction t generalizing v with
  | null =>
      refine ⟨?_, fun _ => ⟨null, rfl, trivial⟩⟩
      rintro t' ⟨hdel, -⟩
      obtain rfl := Option.some.inj hdel
      exact ⟨⟨False.elim, fun _ => rfl⟩, trivial⟩
  | node k p l r h ihl ihr =>
      have ⟨hl, hr, hh, hle, hge⟩ := ht
      rcases lt_trichotomy v k with hvk | rfl | hkv
      · exact avlDelete_left hvk ht (ihl hl)
      · have hlow := hl.height_ge
        have hrow := hr.height_ge
        simp only [Deletes, Lowers, DeleteOk, Shrinks, avlDelete, lt_irrefl, if_false] at *
        by_cases hlnull : l = null
        · -- the right child takes the place of the node
          subst hlnull
          rw [height_null] at *
          refine ⟨?_, fun _ => ⟨r, rfl, hr⟩⟩
          rintro t' ⟨hdel, -⟩
          obtain rfl := Option.some.inj hdel
          exact ⟨⟨fun _ => by rw [height_node]; omega, fun hn => absurd (.inl rfl) hn⟩, fun _ _ => .inl rfl⟩
        have hlnull' : l.isNull = false := Bool.eq_false_iff.mpr (mt isNull_iff.mp hlnull)
        cases hm : leftmost r with
        | none =>
            -- the left child takes the place of the node
            obtain rfl := leftmost_eq_none.mp hm
            rw [height_null] at *
            simp only [hlnull', Bool.false_eq_true, if_false]
            refine ⟨?_, fun _ => ⟨l, rfl, hl⟩⟩
            rintro t' ⟨hdel, -⟩
            obtain rfl := Option.some.inj hdel
            refine ⟨⟨fun _ => by rw [height_node]; omega, fun hn => absurd (.inr rfl) hn⟩, by simp⟩
        | some m =>
            have hrnull : r.isNull = false := by
              refine Bool.eq_false_iff.mpr fun hnull => ?_
              rw [leftmost_eq_none.mpr (isNull_iff.mp hnull)] at hm
              cases hm
            simp only [hlnull', hrnull, Bool.false_eq_true, if_false, false_or, Option.mem_some_iff,
              forall_eq']
            have ⟨ih₁, ih₂⟩ := ihr (v := m.1) hr
            constructor
            · rintro t' ⟨hdel, hinv⟩
              have ⟨r', hr', hres⟩ := Option.bind_eq_some_iff.mp hdel
              obtain rfl := Option.some.inj hres
              have ⟨_, hr'inv, hh', hle', hge'⟩ := hinv
              have ⟨⟨hlow', hsame'⟩, hok⟩ := ih₁ r' ⟨hr', hr'inv⟩
              refine ⟨⟨False.elim, fun _ => rfl⟩, hok, ?_⟩
              intro hs
              have := hlow' hs
              omega
            · rintro ⟨hok, hcond⟩
              have ⟨r', hr', hr'inv⟩ := ih₂ hok
              have ⟨⟨hlow', hsame'⟩, _⟩ := ih₁ r' ⟨hr', hr'inv⟩
              refine ⟨node m.1 m.2 l r' h, by rw [hr']; rfl, heightInv_node.mpr ⟨hl, hr'inv, ?_⟩⟩
              by_cases hs : Shrinks m.1 r
              · have := hlow' hs
                have := hcond hs
                omega
              · have := hsame' hs
                omega
      · exact avlDelete_right hkv ht (ihr hr)

end

/-! ## Runs -/

section

variable {α π : Type*} [LinearOrder α] {t : AvlNode α π} {v : α}

/-- A call on a tree. -/
inductive AvlCall (α π : Type*) where
  | insert (val : α) (payload : π)
  | delete (val : α)

/-- The tree that a call returns. -/
def avlStep (t : AvlNode α π) : AvlCall α π → Option (AvlNode α π)
  | .insert val payload => avlInsert val payload t
  | .delete val => avlDelete val t

/-- Every insertion does right, and the deletions that `DeleteOk` says. -/
def AvlCall.Ok (t : AvlNode α π) : AvlCall α π → Prop
  | .insert .. => True
  | .delete val => DeleteOk val t

instance (t : AvlNode α π) : ∀ c : AvlCall α π, Decidable (c.Ok t)
  | .insert .. => isTrue trivial
  | .delete val => DeleteOk.decidable val t

theorem wellFormed_iff_heightInv : WellFormed t ↔ IsSearchTree t ∧ HeightInv t := by
  rw [heightInv_iff]
  exact ⟨fun h => ⟨h.search, h.heights, h.balanced⟩, fun h => ⟨h.1, h.2.1, h.2.2⟩⟩

theorem wellFormed_step (t : AvlNode α π) (c : AvlCall α π) (ht : WellFormed t) :
    (∃ t', avlStep t c = some t' ∧ WellFormed t') ↔ c.Ok t := by
  have ⟨hsearch, hinv⟩ := wellFormed_iff_heightInv.mp ht
  have hsorted := isSearchTree_iff.mp hsearch
  cases c with
  | insert val payload =>
      refine iff_of_true ?_ trivial
      have ⟨t', hins, hinv', _⟩ := avlInsert_height val payload hinv
      have hsearch' := isSearchTree_iff.mpr (avlInsert_values hsorted hins).1
      exact ⟨t', hins, wellFormed_iff_heightInv.mpr ⟨hsearch', hinv'⟩⟩
  | delete val =>
      have ⟨hback, hthere⟩ := avlDelete_height (v := val) hinv
      constructor
      · rintro ⟨t', hdel, ht'⟩
        exact (hback t' ⟨hdel, (wellFormed_iff_heightInv.mp ht').2⟩).2
      · intro hok
        have ⟨t', hdel, hinv'⟩ := hthere hok
        have hsearch' := isSearchTree_iff.mpr (avlDelete_values hsorted hdel).1
        exact ⟨t', hdel, wellFormed_iff_heightInv.mpr ⟨hsearch', hinv'⟩⟩

theorem wellFormed_null : WellFormed (null : AvlNode α π) := ⟨trivial, trivial, trivial⟩

/-- **All trees of a run are well formed if and only if all its deletions do right.** -/
theorem wellFormed_iff (calls : List (AvlCall α π)) :
    KeepsAll avlStep WellFormed (null : AvlNode α π) calls ↔
      AllCalls avlStep (fun t c => c.Ok t) (null : AvlNode α π) calls :=
  keepsAll_iff wellFormed_step wellFormed_null calls

end

/-- When 2 is deleted at the root, 3 takes its place and the right child gets lower, but the height of the
root stays 2. -/
theorem delete_can_leave_height :
    runCalls avlStep (null : AvlNode (Fin (2 ^ 32)) Unit)
        [.insert 2 (), .insert 1 (), .insert 3 (), .insert 4 (), .delete 2] =
      some (node 3 () (node 1 () null null 0) (node 4 () null null 0) 2) ∧
    ¬ WellFormed (node (3 : Fin (2 ^ 32)) () (node 1 () null null 0) (node 4 () null null 0) 2) := by
  refine ⟨rfl, ?_⟩
  intro h
  exact absurd h.heights.1 (by decide)

/-- When 1 is deleted, 3 and 4 are too high on the right of 2. The double rotation follows a null
pointer, where a single one was needed. -/
example : runCalls avlStep (null : AvlNode (Fin (2 ^ 32)) Unit)
    [.insert 2 (), .insert 1 (), .insert 3 (), .insert 4 (), .delete 1] = none := rfl

end Shaunos.Avl
