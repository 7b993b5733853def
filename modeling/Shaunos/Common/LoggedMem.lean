import Mathlib

/-!
# Memory with a log

Memory with addresses of `w` bits, which come round at the end, and a log of what was written. Places are given as
offsets from a base address.

* `LoggedMem.Extends` — a run that logs what it writes;
* `LoggedMem.Within` — all that was written lies in some bytes from an address on;
* `readWord_of_hasBytes` — the bytes of a word are read back as the word.
-/

namespace Shaunos

/-- Memory, and what was written to it: addresses, each with a number of bytes. -/
structure LoggedMem (w : ℕ) where
  mem : BitVec w → BitVec 8
  writes : List (BitVec w × ℕ)

variable {w : ℕ}

/-- Bytes are written from `d` on. -/
def LoggedMem.put (m : LoggedMem w) (d : BitVec w) (data : List (BitVec 8)) : LoggedMem w where
  mem := fun a => data.getD (a - d).toNat (m.mem a)
  writes := (d, data.length) :: m.writes

/-- The bytes of a word, in their order in memory. -/
def wordBytes (v : BitVec 32) : List (BitVec 8) :=
  [v.extractLsb' 0 8, v.extractLsb' 8 8, v.extractLsb' 16 8, v.extractLsb' 24 8]

def readWord (mem : BitVec w → BitVec 8) (a : BitVec w) : BitVec 32 :=
  mem (a + 3) ++ mem (a + 2) ++ mem (a + 1) ++ mem a

/-- The memory holds some bytes from `a` on. -/
def HasBytes (mem : BitVec w → BitVec 8) (a : BitVec w) (data : List (BitVec 8)) : Prop :=
  ∀ i (h : i < data.length), mem (a + BitVec.ofNat w i) = data.get ⟨i, h⟩

instance (mem : BitVec w → BitVec 8) (a : BitVec w) (data : List (BitVec 8)) : Decidable (HasBytes mem a data) :=
  inferInstanceAs (Decidable (∀ i (_ : i < data.length), _))

/-- Some write covers an address. -/
def Touched (writes : List (BitVec w × ℕ)) (a : BitVec w) : Prop :=
  ∃ x ∈ writes, ∃ i < x.2, a = x.1 + BitVec.ofNat w i

/-- What was written is logged. -/
structure LoggedMem.Extends (m m' : LoggedMem w) : Prop where
  grows : m.writes ⊆ m'.writes
  mem_eq : ∀ {a}, ¬ Touched m'.writes a → m'.mem a = m.mem a

/-- All writes lie in the `n` bytes from `base` on. -/
def LoggedMem.Within (m : LoggedMem w) (base : BitVec w) (n : ℕ) : Prop :=
  ∀ x ∈ m.writes, ∀ i < x.2, (x.1 + BitVec.ofNat w i - base).toNat < n

variable {m m' m'' : LoggedMem w} {mem mem' : BitVec w → BitVec 8} {base a d : BitVec w}
  {data data' : List (BitVec 8)} {o k t : ℕ} {writes writes' : List (BitVec w × ℕ)}

/-! ## Offsets -/

theorem offset_add (ho : o < 2 ^ w) : (base + BitVec.ofNat w o - base).toNat = o := by
  rw [add_sub_cancel_left, BitVec.toNat_ofNat, Nat.mod_eq_of_lt ho]

theorem eq_add_offset (base a : BitVec w) : a = base + BitVec.ofNat w (a - base).toNat := by
  rw [BitVec.ofNat_toNat, BitVec.setWidth_eq, add_sub_cancel]

theorem add_ofNat_inj (hk : k < 2 ^ w) (ho : o < 2 ^ w)
    (h : base + BitVec.ofNat w k = base + BitVec.ofNat w o) : k = o := by
  have heq := congrArg BitVec.toNat (add_left_cancel h)
  rwa [BitVec.toNat_ofNat, BitVec.toNat_ofNat, Nat.mod_eq_of_lt hk, Nat.mod_eq_of_lt ho] at heq

theorem toNat_add_ofNat (h : base.toNat + o < 2 ^ w) : (base + BitVec.ofNat w o).toNat = base.toNat + o := by
  rw [BitVec.toNat_add, BitVec.toNat_ofNat, Nat.add_mod_mod, Nat.mod_eq_of_lt h]

/-! ## Writing -/

theorem Touched.mono (hsub : writes ⊆ writes') (h : Touched writes a) : Touched writes' a := by
  obtain ⟨x, hx, hi⟩ := h
  exact ⟨x, hsub hx, hi⟩

namespace LoggedMem

theorem put_of_not_touched (h : ¬ Touched [(d, data.length)] a) : (m.put d data).mem a = m.mem a := by
  refine List.getD_eq_default _ _ (not_lt.mp fun hlt => h ⟨_, List.mem_singleton_self _, _, hlt, ?_⟩)
  exact eq_add_offset d a

theorem put_below (ha : (a - base).toNat < k) (hk : k + data.length ≤ 2 ^ w) :
    (m.put (base + BitVec.ofNat w k) data).mem a = m.mem a := by
  refine put_of_not_touched ?_
  rintro ⟨x, hx, i, hi, rfl⟩
  obtain rfl := List.mem_singleton.mp hx
  dsimp only at ha hi
  rw [add_assoc, ← BitVec.ofNat_add, offset_add (by omega)] at ha
  omega

theorem put_above (ha : k + data.length ≤ (a - base).toNat) :
    (m.put (base + BitVec.ofNat w k) data).mem a = m.mem a := by
  refine put_of_not_touched ?_
  rintro ⟨x, hx, i, hi, rfl⟩
  obtain rfl := List.mem_singleton.mp hx
  dsimp only at ha hi
  rw [add_assoc, ← BitVec.ofNat_add, add_sub_cancel_left, BitVec.toNat_ofNat] at ha
  have := Nat.mod_le (k + i) (2 ^ w)
  omega

theorem put_at (hko : k ≤ o) (ho : o < 2 ^ w) :
    (m.put (base + BitVec.ofNat w k) data).mem (base + BitVec.ofNat w o) =
      data.getD (o - k) (m.mem (base + BitVec.ofNat w o)) := by
  obtain ⟨i, rfl⟩ := Nat.exists_eq_add_of_le hko
  rw [put]
  dsimp only
  rw [Nat.add_sub_cancel_left, BitVec.ofNat_add, ← add_assoc, offset_add (by omega)]

theorem hasBytes_put (hlen : data.length ≤ 2 ^ w) : HasBytes (m.put d data).mem d data := by
  intro i hi
  rw [put]
  dsimp only
  rw [offset_add (by omega), List.getD_eq_getElem _ _ hi, List.get_eq_getElem]

theorem Extends.refl (m : LoggedMem w) : m.Extends m := ⟨List.Subset.refl _, fun _ => rfl⟩

theorem Extends.trans (h : m.Extends m') (h' : m'.Extends m'') : m.Extends m'' :=
  ⟨List.Subset.trans h.grows h'.grows, fun ha =>
    (h'.mem_eq ha).trans (h.mem_eq fun htouched => ha (htouched.mono h'.grows))⟩

theorem extends_put (m : LoggedMem w) (d : BitVec w) (data : List (BitVec 8)) : m.Extends (m.put d data) :=
  ⟨List.subset_cons_self _ _, fun ha => put_of_not_touched fun htouched =>
    ha (htouched.mono (List.cons_subset_cons _ (List.nil_subset _)))⟩

theorem Within.put {n o : ℕ} (h : m.Within base n) (hn : n ≤ 2 ^ w) (ho : o + data.length ≤ n) :
    (m.put (base + BitVec.ofNat w o) data).Within base n := by
  intro x hx i hi
  rcases List.mem_cons.mp hx with rfl | hx
  · dsimp only at hi ⊢
    rw [add_assoc, ← BitVec.ofNat_add, offset_add (by omega)]
    omega
  · exact h x hx i hi

end LoggedMem

/-! ## Reading -/

theorem HasBytes.congr (h : HasBytes mem a data)
    (heq : ∀ i < data.length, mem' (a + BitVec.ofNat w i) = mem (a + BitVec.ofNat w i)) :
    HasBytes mem' a data := fun i hi => (heq i hi).trans (h i hi)

theorem HasBytes.offset_congr (hk : k + data.length ≤ 2 ^ w) (h : HasBytes mem (base + BitVec.ofNat w k) data)
    (heq : ∀ a, k ≤ (a - base).toNat → (a - base).toNat < k + data.length → mem' a = mem a) :
    HasBytes mem' (base + BitVec.ofNat w k) data := by
  refine h.congr fun i hi => ?_
  rw [add_assoc, ← BitVec.ofNat_add]
  exact heq _ (by rw [offset_add (by omega)]; omega) (by rw [offset_add (by omega)]; omega)

theorem hasBytes_cons {x : BitVec 8} :
    HasBytes mem a (x :: data) ↔ mem a = x ∧ HasBytes mem (a + 1) data := by
  have hnext (i : ℕ) : a + 1 + BitVec.ofNat w i = a + BitVec.ofNat w (i + 1) := by
    rw [BitVec.ofNat_add, add_assoc, add_comm 1]
    rfl
  have hfirst : a + BitVec.ofNat w 0 = a := add_zero a
  constructor
  · intro h
    refine ⟨hfirst ▸ h 0 (Nat.succ_pos _), fun i hi => ?_⟩
    rw [hnext]
    exact h (i + 1) (Nat.succ_lt_succ hi)
  · rintro ⟨hx, h⟩ i hi
    cases i with
    | zero => exact (congrArg mem hfirst).trans hx
    | succ i =>
        rw [← hnext]
        exact h i (Nat.lt_of_succ_lt_succ hi)

theorem HasBytes.append_left (h : HasBytes mem a (data ++ data')) : HasBytes mem a data := by
  intro i hi
  have hbyte := h i (by rw [List.length_append]; omega)
  rwa [List.get_eq_getElem, List.getElem_append_left hi] at hbyte

theorem length_wordBytes (v : BitVec 32) : (wordBytes v).length = 4 := rfl

theorem readWord_congr (h : ∀ i < 4, mem' (a + BitVec.ofNat w i) = mem (a + BitVec.ofNat w i)) :
    readWord mem' a = readWord mem a := by
  have h0 : mem' a = mem a := by simpa using h 0 (by omega)
  rw [readWord, readWord, h0]
  congr 1
  congr 1
  congr 1
  · exact h 3 (by omega)
  · exact h 2 (by omega)
  · exact h 1 (by omega)

theorem readWord_offset_congr (ht : t + 4 ≤ 2 ^ w)
    (heq : ∀ a, t ≤ (a - base).toNat → (a - base).toNat < t + 4 → mem' a = mem a) :
    readWord mem' (base + BitVec.ofNat w t) = readWord mem (base + BitVec.ofNat w t) := by
  refine readWord_congr fun i hi => ?_
  rw [add_assoc, ← BitVec.ofNat_add]
  exact heq _ (by rw [offset_add (by omega)]; omega) (by rw [offset_add (by omega)]; omega)

theorem readWord_of_hasBytes {v : BitVec 32} (h : HasBytes mem a (wordBytes v)) : readWord mem a = v := by
  have h0 : mem a = v.extractLsb' 0 8 := (hasBytes_cons.mp h).1
  have h1 : mem (a + 1) = v.extractLsb' 8 8 := h 1 (by rw [length_wordBytes]; omega)
  have h2 : mem (a + 2) = v.extractLsb' 16 8 := h 2 (by rw [length_wordBytes]; omega)
  have h3 : mem (a + 3) = v.extractLsb' 24 8 := h 3 (by rw [length_wordBytes]; omega)
  rw [readWord, h0, h1, h2, h3]
  ext i hi
  simp only [BitVec.getElem_append, BitVec.getElem_extractLsb']
  grind

theorem readWord_zero (h : ∀ o, t ≤ o → o < t + 4 → mem (base + BitVec.ofNat w o) = 0) :
    readWord mem (base + BitVec.ofNat w t) = 0 := by
  refine readWord_of_hasBytes fun i hi => ?_
  rw [length_wordBytes] at hi
  rw [add_assoc, ← BitVec.ofNat_add, h _ (by omega) (by omega)]
  interval_cases i <;> rfl

theorem LoggedMem.readWord_put (hw : 2 ≤ w) (v : BitVec 32) : readWord (m.put a (wordBytes v)).mem a = v := by
  refine readWord_of_hasBytes (hasBytes_put ?_)
  rw [length_wordBytes]
  exact Nat.pow_le_pow_right (by decide : 0 < 2) hw

end Shaunos
