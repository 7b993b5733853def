import Mathlib.Logic.Function.Basic
import Shaunos.Kernel.Bitops

/-!
# Id maps

Reference: `Kernel/pid.c`, `Include/kernel/pid.h`.

A `kid_object` hands out small numbers. Bit `id % 32` of word `id / 32` of its map is set while `id`
is free, and `offset` is the word at which the search for a free id starts.

* `getUnusedId_spec` — an id that is handed out was free, and no other id changes;
* `isFree_putId`, `isFree_resvId` — giving back and reserving change one id;
* `isFree_kidDup` — a copy of a map has the same free ids.
-/

namespace Shaunos.Pid

open Bitops

/-- `struct kid_object`. -/
structure KidObject where
  /-- The words of the map; what stands behind its last word is other memory. -/
  kidMap : ℕ → BitVec 32
  offset : ℕ
  /-- The size of the map in bytes. -/
  size : ℕ

/-- `kernel_id_map_init` on a small map, whose memory is followed by `beyond`. -/
def kernelIdMapInit (size : ℕ) (beyond : ℕ → BitVec 32) : KidObject where
  kidMap := fun w => if w < size / 4 then BitVec.allOnes 32 else beyond w
  offset := 0
  size := size

/-- Change one word of the map. -/
def KidObject.modify (obj : KidObject) (w : ℕ) (f : BitVec 32 → BitVec 32) : KidObject :=
  { obj with kidMap := Function.update obj.kidMap w (f (obj.kidMap w)) }

/-- `obj->offset++`, back to 0 at the end of the map. -/
def KidObject.advance (obj : KidObject) : KidObject :=
  { obj with offset := if obj.offset + 1 = obj.size / 4 then 0 else obj.offset + 1 }

/-- The `AGAIN` loop of `get_unused_id`. Once every word has been looked at and none has a free id,
the loop goes round for ever. -/
def getUnusedIdLoop : ℕ → KidObject → Option (ℕ × KidObject)
  | 0, _ => none
  | fuel + 1, obj =>
      match findFirstBit (obj.kidMap obj.offset) with
      | none => getUnusedIdLoop fuel obj.advance
      | some index =>
          let id := obj.offset * 32 + index
          let obj := obj.modify obj.offset (clearBit index)
          some (id, if index = 31 then obj.advance else obj)

/-- `get_unused_id`. -/
def getUnusedId (obj : KidObject) : Option (ℕ × KidObject) := getUnusedIdLoop (obj.size / 4) obj

/-- `put_id`. -/
def putId (obj : KidObject) (id : ℕ) : KidObject :=
  let offset := id / 32
  let obj := obj.modify offset (setBit (id % 32))
  if offset < obj.offset then { obj with offset := offset } else obj

/-- `resv_id`. -/
def resvId (obj : KidObject) (id : ℕ) : KidObject := obj.modify (id / 32) (clearBit (id % 32))

/-- `kid_dup`. -/
def kidDup (dobj sobj : KidObject) : KidObject where
  kidMap := fun w => if w < sobj.size / 4 then sobj.kidMap w else dobj.kidMap w
  offset := sobj.offset
  size := sobj.size

/-! ## Free ids -/

/-- The id may be handed out. -/
def IsFree (obj : KidObject) (id : ℕ) : Prop := getBit (id % 32) (obj.kidMap (id / 32)) = true

instance (obj : KidObject) (id : ℕ) : Decidable (IsFree obj id) :=
  inferInstanceAs (Decidable (_ = true))

/-- The map has a last word and the search starts inside it. -/
structure KidObject.WF (obj : KidObject) (words : ℕ) : Prop where
  size : obj.size / 4 = words
  offset : obj.offset < words

section

variable {obj obj' : KidObject} {words : ℕ}

theorem KidObject.WF.advance (h : obj.WF words) : obj.advance.WF words := by
  have hsize := h.size
  have hoff := h.offset
  refine ⟨h.size, ?_⟩
  unfold KidObject.advance
  simp only
  split <;> omega

/-- The search position does not matter for which ids are free. -/
theorem isFree_congr (h : obj'.kidMap = obj.kidMap) (id : ℕ) : IsFree obj' id ↔ IsFree obj id := by
  rw [IsFree, IsFree, h]

/-- Changing word `w` changes the ids of that word only. -/
theorem isFree_modify (obj : KidObject) (w : ℕ) (f : BitVec 32 → BitVec 32) (j : ℕ) :
    IsFree (obj.modify w f) j ↔
      if j / 32 = w then getBit (j % 32) (f (obj.kidMap w)) = true else IsFree obj j := by
  unfold IsFree KidObject.modify
  by_cases hj : j / 32 = w
  · simp [hj]
  · simp [hj]

private theorem id_eq_iff {j w index : ℕ} (hindex : index < 32) :
    j / 32 = w ∧ j % 32 = index ↔ j = w * 32 + index := by
  omega

/-- Clearing one bit takes one id. -/
theorem isFree_modify_clearBit (obj : KidObject) {w index : ℕ} (hindex : index < 32) (j : ℕ) :
    IsFree (obj.modify w (clearBit index)) j ↔ IsFree obj j ∧ j ≠ w * 32 + index := by
  rw [isFree_modify, getBit_clearBit (Nat.mod_lt _ (by omega)), ne_eq, ← id_eq_iff hindex]
  by_cases hj : j / 32 = w
  · subst hj
    simp [IsFree]
  · simp [hj]

/-- Setting one bit gives one id back. -/
theorem isFree_modify_setBit (obj : KidObject) {w index : ℕ} (hindex : index < 32) (j : ℕ) :
    IsFree (obj.modify w (setBit index)) j ↔ IsFree obj j ∨ j = w * 32 + index := by
  rw [isFree_modify, getBit_setBit (Nat.mod_lt _ (by omega)), ← id_eq_iff hindex]
  by_cases hj : j / 32 = w
  · subst hj
    simp [IsFree]
  · simp [hj]

private theorem getUnusedIdLoop_spec (fuel : ℕ) {id : ℕ} (hwf : obj.WF words)
    (h : getUnusedIdLoop fuel obj = some (id, obj')) :
    id < words * 32 ∧ IsFree obj id ∧ obj'.WF words ∧
      ∀ j, IsFree obj' j ↔ IsFree obj j ∧ j ≠ id := by
  induction fuel generalizing obj with
  | zero => simp [getUnusedIdLoop] at h
  | succ fuel ih =>
      rw [getUnusedIdLoop] at h
      split at h
      · -- the word is full, the search moves on
        have hrest := ih hwf.advance h
        exact hrest
      · rename_i index hindex
        obtain ⟨hlt, hbit⟩ := findFirstBit_eq_some hindex
        obtain ⟨rfl, rfl⟩ := Prod.mk.inj (Option.some.inj h)
        have hoff := hwf.offset
        have hdiv : (obj.offset * 32 + index) / 32 = obj.offset := by omega
        have hmod : (obj.offset * 32 + index) % 32 = index := by omega
        have hwf' : (obj.modify obj.offset (clearBit index)).WF words := ⟨hwf.size, hwf.offset⟩
        refine ⟨by omega, by rw [IsFree, hdiv, hmod]; exact hbit, ?_, fun j => ?_⟩
        · split
          · exact hwf'.advance
          · exact hwf'
        · rw [← isFree_modify_clearBit obj hlt]
          apply isFree_congr
          split <;> rfl

/-- An id that `get_unused_id` hands out was free, and it is the only one that changes. -/
theorem getUnusedId_spec {id : ℕ} (hwf : obj.WF words) (h : getUnusedId obj = some (id, obj')) :
    id < words * 32 ∧ IsFree obj id ∧ obj'.WF words ∧
      ∀ j, IsFree obj' j ↔ IsFree obj j ∧ j ≠ id :=
  getUnusedIdLoop_spec _ hwf h

theorem KidObject.WF.putId (h : obj.WF words) (id : ℕ) : (putId obj id).WF words := by
  unfold Pid.putId
  simp only
  split
  · rename_i hlt
    exact ⟨h.size, lt_trans hlt h.offset⟩
  · exact ⟨h.size, h.offset⟩

theorem KidObject.WF.resvId (h : obj.WF words) (id : ℕ) : (resvId obj id).WF words :=
  ⟨h.size, h.offset⟩

/-- `put_id` makes one id free. -/
theorem isFree_putId (obj : KidObject) (id j : ℕ) :
    IsFree (putId obj id) j ↔ IsFree obj j ∨ j = id := by
  have hid : id / 32 * 32 + id % 32 = id := by omega
  have hlt : id % 32 < 32 := Nat.mod_lt _ (by omega)
  have hset := isFree_modify_setBit obj (w := id / 32) hlt j
  rw [hid] at hset
  rw [← hset]
  apply isFree_congr
  unfold putId
  simp only
  split <;> rfl

/-- `resv_id` takes one id. -/
theorem isFree_resvId (obj : KidObject) (id j : ℕ) :
    IsFree (resvId obj id) j ↔ IsFree obj j ∧ j ≠ id := by
  have hid : id / 32 * 32 + id % 32 = id := by omega
  rw [resvId, isFree_modify_clearBit obj (by omega), hid]

theorem KidObject.WF.kidDup (h : obj.WF words) (dobj : KidObject) : (kidDup dobj obj).WF words :=
  ⟨h.size, h.offset⟩

/-- `kid_dup` copies which ids are free. -/
theorem isFree_kidDup (h : obj.WF words) (dobj : KidObject) {id : ℕ} (hid : id < words * 32) :
    IsFree (kidDup dobj obj) id ↔ IsFree obj id := by
  have hword : id / 32 < obj.size / 4 := by
    rw [h.size]
    omega
  unfold IsFree kidDup
  simp only [hword, if_true]

end

end Shaunos.Pid
