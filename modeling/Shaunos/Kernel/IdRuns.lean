import Mathlib
import Shaunos.Common.Run
import Shaunos.Kernel.Pid

/-!
# The smallest free id

Reference: `Kernel/pid.c`, `Kernel/bitops.c` (`__find_first_bit`).

`bsfl` says nothing about its result for a word without a set bit, so that result is a parameter here.
`__find_first_bit` tests the address for 0 where it should test the word.

* `idFrom_eq` — when that result is not used, or is -1, `get_unused_id` is as `Pid` has it;
* `getUnusedIdLoop_least` — with all words below the offset full, it finds the smallest free id;
* `idRight_of_reach` — every run of the three functions.
-/

namespace Shaunos.Pid

open Bitops

/-! ## The code -/

/-- `__find_first_bit`. The register has `zero` in it when the word is 0. -/
def findFirstBitOr (zero : ℤ) (w : BitVec 32) : ℤ := (findFirstBit w).elim zero Nat.cast

/-- The `AGAIN` loop of `get_unused_id`. `btrl` takes bit `index` of the memory from `kid_map + offset` on;
nothing is said of what happens below it. -/
def idLoopFrom (zero : ℤ) : ℕ → KidObject → Option (ℤ × KidObject)
  | 0, _ => none
  | fuel + 1, obj =>
      let index := findFirstBitOr zero (obj.kidMap obj.offset)
      if index = -1 then idLoopFrom zero fuel obj.advance
      else if index < 0 then none
      else
        let id := obj.offset * 32 + index
        let obj := obj.modify (obj.offset + index.toNat / 32) (clearBit (index.toNat % 32))
        some (id, if index = 31 then obj.advance else obj)

/-- `get_unused_id`. -/
def getUnusedIdFrom (zero : ℤ) (obj : KidObject) : Option (ℤ × KidObject) :=
  idLoopFrom zero (obj.size / 4) obj

/-! ## Runs -/

/-- The calls on an id map. -/
inductive IdCall where
  | getUnusedId
  | putId (id : ℕ)
  | resvId (id : ℕ)

/-- An id map, with the ids in use or reserved, and what `get_unused_id` returned, each id with those that
were taken. -/
structure IdLog where
  obj : KidObject
  taken : Finset ℕ
  gets : List (ℤ × Finset ℕ)

/-- One call. -/
def IdLog.call (zero : ℤ) (s : IdLog) : IdCall → Option IdLog
  | .getUnusedId => (getUnusedIdFrom zero s.obj).map fun (id, obj) =>
      { obj := obj, taken := insert id.toNat s.taken, gets := (id, s.taken) :: s.gets }
  | .putId id => some { s with obj := putId s.obj id, taken := s.taken.erase id }
  | .resvId id => some { s with obj := resvId s.obj id, taken := insert id s.taken }

/-- A new map, after `kernel_id_map_init`. -/
def idStart (size : ℕ) (beyond : ℕ → BitVec 32) : IdLog where
  obj := kernelIdMapInit size beyond
  taken := ∅
  gets := []

/-- An id that is put back is in use. -/
def IdCall.Fits (s : IdLog) : IdCall → Prop
  | .putId id => id ∈ s.taken
  | _ => True

/-- A call that fits and does right: the search does not start at a full word, unless `__find_first_bit`
returns -1 for it. -/
def IdCall.Ok (zero : ℤ) (s : IdLog) : IdCall → Prop
  | .getUnusedId => zero = -1 ∨ s.obj.kidMap s.obj.offset ≠ 0
  | call => call.Fits s

instance (s : IdLog) : ∀ call, Decidable (IdCall.Fits s call)
  | .getUnusedId => isTrue trivial
  | .putId _ => inferInstanceAs (Decidable (_ ∈ _))
  | .resvId _ => isTrue trivial

instance (zero : ℤ) (s : IdLog) : ∀ call, Decidable (IdCall.Ok zero s call)
  | .getUnusedId => inferInstanceAs (Decidable (_ ∨ _))
  | .putId _ => inferInstanceAs (Decidable (_ ∈ _))
  | .resvId _ => isTrue trivial

/-- Every id that was handed out was the smallest one not taken, the free ids of the map are those not
taken, no word below the offset has a free id, and an id is handed out as long as there is one. -/
structure IdRight (zero : ℤ) (words : ℕ) (s : IdLog) : Prop where
  least : ∀ get ∈ s.gets, ∃ id : ℕ, get.1 = id ∧ id < words * 32 ∧ id ∉ get.2 ∧ ∀ j < id, j ∈ get.2
  free : ∀ id < words * 32, IsFree s.obj id ↔ id ∉ s.taken
  full : ∀ w < s.obj.offset, s.obj.kidMap w = 0
  returns : ∀ id < words * 32, id ∉ s.taken → IdCall.Ok zero s .getUnusedId →
    (s.call zero .getUnusedId).isSome = true

/-! ## The search -/

section

variable {obj obj' : KidObject} {words : ℕ} {zero : ℤ}

theorem findFirstBit_eq_none {w : BitVec 32} : findFirstBit w = none ↔ w = 0 := by
  rw [findFirstBit, List.find?_range_eq_none]
  constructor
  · intro h
    ext i hi
    rw [← BitVec.getLsbD_eq_getElem]
    simpa [getBit] using h i hi
  · rintro rfl i _
    simp [getBit]

theorem findFirstBit_least {w : BitVec 32} {nr : ℕ} (h : findFirstBit w = some nr) :
    ∀ m < nr, getBit m w = false := by
  rw [findFirstBit, List.find?_range_eq_some] at h
  intro m hm
  simpa using h.2.2 m hm

/-- The two searches agree while the result for a full word is not used or is -1. -/
theorem idFrom_eq (hok : zero = -1 ∨ obj.kidMap obj.offset ≠ 0) :
    getUnusedIdFrom zero obj = (getUnusedId obj).map fun r => ((r.1 : ℤ), r.2) := by
  rw [getUnusedIdFrom, getUnusedId]
  generalize obj.size / 4 = fuel
  induction fuel generalizing obj with
  | zero => rfl
  | succ fuel ih =>
      rw [idLoopFrom, getUnusedIdLoop, findFirstBitOr]
      cases hfirst : findFirstBit (obj.kidMap obj.offset) with
      | none =>
          have hzero : zero = -1 := hok.resolve_right (not_not.mpr (findFirstBit_eq_none.mp hfirst))
          simp only [Option.elim_none, hzero, if_true]
          exact hzero ▸ ih (.inl hzero)
      | some index =>
          have hlt := (findFirstBit_eq_some hfirst).1
          have hdiv : index / 32 = 0 := by omega
          have hmod : index % 32 = index := by omega
          have hneg : ¬ (index : ℤ) < 0 := by omega
          have hne : ¬ (index : ℤ) = -1 := by omega
          have hcast : (index : ℤ) = 31 ↔ index = 31 := by omega
          simp only [Option.elim_some, if_neg hne, if_neg hneg, Int.toNat_natCast, hdiv, hmod,
            Nat.add_zero, Option.map_some, hcast]
          norm_cast

/-- No word below the offset has a free id. -/
def Full (obj : KidObject) : Prop := ∀ w < obj.offset, obj.kidMap w = 0

theorem Full.not_isFree (h : Full obj) {id : ℕ} (hid : id < obj.offset * 32) : ¬ IsFree obj id := by
  rw [IsFree, h (id / 32) (by omega)]
  simp [getBit]

/-- The search goes on from a full word. -/
theorem Full.advance (h : Full obj) (hword : obj.kidMap obj.offset = 0) : Full obj.advance := by
  intro w hw
  rw [KidObject.advance] at hw
  dsimp only at hw
  have hmap : obj.advance.kidMap w = obj.kidMap w := rfl
  rw [hmap]
  split at hw
  · omega
  · rcases Nat.lt_or_eq_of_le (Nat.le_of_lt_succ hw) with hlt | rfl
    · exact h w hlt
    · exact hword

theorem getUnusedIdLoop_least (fuel : ℕ) {id : ℕ} (hfull : Full obj)
    (h : getUnusedIdLoop fuel obj = some (id, obj')) :
    (∀ j < id, ¬ IsFree obj j) ∧ Full obj' := by
  induction fuel generalizing obj with
  | zero => simp [getUnusedIdLoop] at h
  | succ fuel ih =>
      rw [getUnusedIdLoop] at h
      split at h
      · rename_i hnone
        have hword := findFirstBit_eq_none.mp hnone
        have hrest := ih (hfull.advance hword) h
        exact hrest
      · rename_i index hindex
        have hlt := (findFirstBit_eq_some hindex).1
        have hleast := findFirstBit_least hindex
        obtain ⟨rfl, rfl⟩ := Prod.mk.inj (Option.some.inj h)
        refine ⟨?_, ?_⟩
        · intro j hj
          rcases Nat.lt_or_ge j (obj.offset * 32) with hlow | hhigh
          · exact hfull.not_isFree hlow
          · have hdiv : j / 32 = obj.offset := by omega
            rw [IsFree, hdiv, hleast (j % 32) (by omega)]
            simp
        · have hmod : Full (obj.modify obj.offset (clearBit index)) := by
            intro w hw
            have hne : w ≠ obj.offset := by
              rintro rfl
              exact lt_irrefl _ hw
            have hmap : (obj.modify obj.offset (clearBit index)).kidMap w = obj.kidMap w := by
              simp [KidObject.modify, hne]
            rw [hmap]
            exact hfull w hw
          split
          · -- bit 31 was the last one of its word
            rename_i hlast
            refine hmod.advance ?_
            have hmap : (obj.modify obj.offset (clearBit index)).kidMap
                (obj.modify obj.offset (clearBit index)).offset =
                  clearBit index (obj.kidMap obj.offset) := by
              simp [KidObject.modify]
            rw [hmap]
            ext i hi
            have hget := getBit_clearBit hi index (obj.kidMap obj.offset)
            rw [getBit] at hget
            rw [← BitVec.getLsbD_eq_getElem, hget]
            rcases Nat.lt_or_eq_of_le (show i ≤ index by omega) with hi' | rfl
            · simp [hleast i hi']
            · simp
          · exact hmod

/-- The search ends if a word from the offset on has a free id. -/
theorem getUnusedIdLoop_returns (fuel : ℕ) {id : ℕ} (hwf : obj.WF words) (hid : id < words * 32)
    (hfree : IsFree obj id) (hge : obj.offset * 32 ≤ id) (hfuel : words ≤ obj.offset + fuel) :
    (getUnusedIdLoop fuel obj).isSome = true := by
  induction fuel generalizing obj with
  | zero =>
      have := hwf.offset
      omega
  | succ fuel ih =>
      rw [getUnusedIdLoop]
      split
      · rename_i hnone
        have hword := findFirstBit_eq_none.mp hnone
        have hne : id / 32 ≠ obj.offset := by
          intro heq
          rw [IsFree, heq, hword] at hfree
          simp [getBit] at hfree
        have hsize := hwf.size
        have hadv : obj.advance.offset = obj.offset + 1 := by
          rw [KidObject.advance]
          dsimp only
          rw [if_neg (by omega)]
        have hrest := ih hwf.advance hfree (by omega) (by omega)
        exact hrest
      · rfl

/-- `get_unused_id` ends when there is a free id. -/
theorem getUnusedId_returns {id : ℕ} (hwf : obj.WF words) (hfull : Full obj) (hid : id < words * 32)
    (hfree : IsFree obj id) : (getUnusedId obj).isSome = true := by
  have hge : obj.offset * 32 ≤ id := by
    by_contra hlt
    exact hfull.not_isFree (not_le.mp hlt) hfree
  refine getUnusedIdLoop_returns _ hwf hid hfree hge ?_
  rw [hwf.size]
  omega

theorem Full.putId (h : Full obj) (id : ℕ) : Full (putId obj id) := by
  intro w hw
  unfold Pid.putId at hw ⊢
  dsimp only at hw ⊢
  split at hw
  · rename_i hlt
    rw [if_pos hlt]
    have hne : w ≠ id / 32 := Nat.ne_of_lt hw
    simpa [KidObject.modify, hne] using h w (hw.trans hlt)
  · rename_i hge
    rw [if_neg hge]
    have hne : w ≠ id / 32 := by
      rintro rfl
      exact hge hw
    simpa [KidObject.modify, hne] using h w hw

theorem Full.resvId (h : Full obj) (id : ℕ) : Full (resvId obj id) := by
  intro w hw
  have hzero := h w hw
  unfold Pid.resvId KidObject.modify
  by_cases hne : w = id / 32
  · subst hne
    simp [hzero, clearBit]
  · simpa [hne] using hzero

end

/-! ## Every run -/

/-- What every call keeps. -/
structure IdInv (words : ℕ) (s : IdLog) : Prop where
  wf : s.obj.WF words
  full : Full s.obj
  free : ∀ id < words * 32, IsFree s.obj id ↔ id ∉ s.taken
  least : ∀ get ∈ s.gets, ∃ id : ℕ, get.1 = id ∧ id < words * 32 ∧ id ∉ get.2 ∧ ∀ j < id, j ∈ get.2

section

variable {words : ℕ} {zero : ℤ} {s s' : IdLog}

theorem IdInv.getUnusedId (h : IdInv words s) (hok : IdCall.Ok zero s .getUnusedId)
    (hcall : s.call zero .getUnusedId = some s') : IdInv words s' := by
  rw [IdLog.call, idFrom_eq hok, Option.map_map] at hcall
  have ⟨⟨id, obj⟩, hget, hs'⟩ := Option.map_eq_some_iff.mp hcall
  subst hs'
  have ⟨hid, hfree, hwf, hfree'⟩ := getUnusedId_spec h.wf hget
  have ⟨hleast, hfull⟩ := getUnusedIdLoop_least _ h.full hget
  refine ⟨hwf, hfull, ?_, ?_⟩
  · intro j hj
    simp only [Function.comp_apply, Int.toNat_natCast, Finset.mem_insert, not_or]
    rw [hfree' j, h.free j hj, and_comm]
  · intro get hget
    rcases List.mem_cons.mp hget with rfl | hget
    · refine ⟨id, rfl, hid, (h.free id hid).mp hfree, fun j hj => ?_⟩
      by_contra hnot
      exact hleast j hj ((h.free j (hj.trans hid)).mpr hnot)
    · exact h.least get hget

theorem IdInv.call (h : IdInv words s) (call : IdCall) (hok : IdCall.Ok zero s call)
    (hcall : s.call zero call = some s') : IdInv words s' := by
  cases call with
  | getUnusedId => exact h.getUnusedId hok hcall
  | putId id =>
      obtain rfl := Option.some.inj hcall
      refine ⟨h.wf.putId id, h.full.putId id, ?_, h.least⟩
      intro j hj
      rw [isFree_putId, h.free j hj, Finset.mem_erase]
      tauto
  | resvId id =>
      obtain rfl := Option.some.inj hcall
      refine ⟨h.wf.resvId id, h.full.resvId id, ?_, h.least⟩
      intro j hj
      rw [isFree_resvId, h.free j hj, Finset.mem_insert]
      tauto

theorem IdInv.right (h : IdInv words s) : IdRight zero words s := by
  refine ⟨h.least, h.free, h.full, ?_⟩
  intro id hid hfree hok
  rw [IdLog.call, idFrom_eq hok, Option.map_map, Option.isSome_map]
  exact getUnusedId_returns h.wf h.full hid ((h.free id hid).mpr hfree)

/-- **Ids are handed out smallest first in every run whose searches do not start at a full word.** -/
theorem idRight_of_reach (size : ℕ) (hsize : 4 ≤ size) (beyond : ℕ → BitVec 32)
    (h : Reach (IdLog.call zero) (IdCall.Ok zero) (idStart size beyond) s) :
    IdRight zero (size / 4) s := by
  refine IdInv.right (h.invariant ?_ fun s call s' hs hok hcall => hs.call call hok hcall)
  have hwords : 0 < size / 4 := by omega
  refine ⟨⟨rfl, hwords⟩, fun w hw => absurd hw (Nat.not_lt_zero w), ?_, by simp [idStart]⟩
  intro id hid
  have hword : id / 32 < size / 4 := by omega
  have hbit : id % 32 < 32 := Nat.mod_lt _ (by decide)
  simp only [IsFree, idStart, kernelIdMapInit, hword, if_true, getBit, BitVec.getLsbD_allOnes, hbit,
    Finset.notMem_empty, not_false_eq_true, decide_true]

end

/-- Two ids are handed out, the first one is put back and the third one is reserved. -/
theorem idRight_of_reach_reserve :
    ∃ s, runCalls (IdLog.call 7) (idStart 128 fun _ => 0)
        [.getUnusedId, .getUnusedId, .putId 0, .resvId 2, .getUnusedId, .getUnusedId] = some s ∧
      s.gets.map Prod.fst = [3, 0, 1, 0] ∧ IdRight 7 (128 / 4) s := by
  set calls : List IdCall :=
    [.getUnusedId, .getUnusedId, .putId 0, .resvId 2, .getUnusedId, .getUnusedId] with hcalls
  have hrun : (runCalls (IdLog.call 7) (idStart 128 fun _ => 0) calls).map
      (fun s => s.gets.map Prod.fst) = some [3, 0, 1, 0] := by
    decide +kernel
  have ⟨s, hs, hgets⟩ := Option.map_eq_some_iff.mp hrun
  exact ⟨s, hs, hgets, idRight_of_reach 128 (by decide) (fun _ => 0)
    (Reach.start.of_runCalls calls (by decide +kernel) hs)⟩

/-- The ids of the first word are reserved, and 0 is handed out all the same when `bsfl` leaves 0. -/
theorem getUnusedId_can_return_taken :
    ∃ s, Reach (IdLog.call 0) IdCall.Fits (idStart 8 fun _ => 0) s ∧ ¬ IdRight 0 (8 / 4) s := by
  set calls : List IdCall := (List.range 32).map .resvId ++ [.getUnusedId] with hcalls
  have hrun : (runCalls (IdLog.call 0) (idStart 8 fun _ => 0) calls).map
      (fun s => s.gets.map fun get => (get.1, decide (0 ∈ get.2))) = some [(0, true)] := by
    decide +kernel
  have ⟨s, hs, hgets⟩ := Option.map_eq_some_iff.mp hrun
  refine ⟨s, Reach.start.of_runCalls calls (by decide +kernel) hs, ?_⟩
  intro hright
  have ⟨get, hget, hpair⟩ := List.map_eq_singleton_iff.mp hgets
  obtain ⟨hid, htaken⟩ : get.1 = 0 ∧ 0 ∈ get.2 := by simpa using hpair
  have ⟨id, hid', _, hnot, _⟩ := hright.least get (hget ▸ List.mem_cons_self)
  have hzero : id = 0 := by omega
  exact hnot (hzero ▸ htaken)

end Shaunos.Pid
