import Mathlib.Algebra.BigOperators.Group.List.Basic
import Mathlib.Algebra.Order.Ring.Int

/-!
# Memory buffers

Reference: `Include/kernel/mbuf.h`, `Kernel/mbuf.c` (`m_get`, `m_free`, `m_adj`).

A chain of mbufs is a list. An mbuf has its bytes in itself, in the `MLEN` bytes of `m_dat`, or in a
cluster of `MCLBYTES` bytes.

* `chainBytes_mAdj` — what `m_adj` does to the bytes of a chain.
-/

namespace Shaunos.Net

abbrev Byte := BitVec 8

def mLEN : ℕ := 108
def mSIZE : ℕ := 128
def mCLBYTES : ℕ := 2048

/-- `max_linkhdr`, as `domaininit` leaves it. -/
def maxLinkhdr : ℕ := 16

def mtSONAME : ℤ := 8

/-- `struct mbuf`. -/
structure Mbuf where
  mType : ℤ
  /-- `m_flags & M_EXT`: the bytes are in a cluster. -/
  mExt : Bool
  /-- `m_flags & M_EOR`. -/
  mEor : Bool
  /-- `m_pkthdr.len`, with `m_flags & M_PKTHDR`. -/
  mPkthdr : Option ℤ
  /-- `m_data - m_dat`, for an mbuf without a cluster. -/
  mData : ℕ
  /-- The `m_len` bytes from `m_data` on. -/
  bytes : List Byte

/-- `m_len`. -/
def Mbuf.mLen (m : Mbuf) : ℕ := m.bytes.length

/-- The memory that an mbuf takes. -/
def Mbuf.size (m : Mbuf) : ℕ := mSIZE + if m.mExt then mCLBYTES else 0

/-- The bytes of a chain. -/
def chainBytes (m : List Mbuf) : List Byte := m.flatMap Mbuf.bytes

/-- The sum of `m_len` over a chain. -/
def chainLen (m : List Mbuf) : ℕ := (m.map Mbuf.mLen).sum

/-- The memory that a chain takes. -/
def chainSize (m : List Mbuf) : ℕ := (m.map Mbuf.size).sum

section

variable (m m' : List Mbuf) (x : Mbuf)

@[simp] theorem chainBytes_nil : chainBytes [] = [] := rfl

@[simp] theorem chainBytes_cons : chainBytes (x :: m) = x.bytes ++ chainBytes m := List.flatMap_cons

@[simp] theorem chainBytes_append : chainBytes (m ++ m') = chainBytes m ++ chainBytes m' :=
  List.flatMap_append

@[simp] theorem chainLen_nil : chainLen [] = 0 := rfl

@[simp] theorem chainLen_cons : chainLen (x :: m) = x.mLen + chainLen m := List.sum_cons

@[simp] theorem chainLen_append : chainLen (m ++ m') = chainLen m + chainLen m' := by
  simp [chainLen]

@[simp] theorem chainSize_nil : chainSize [] = 0 := rfl

@[simp] theorem chainSize_cons : chainSize (x :: m) = x.size + chainSize m := List.sum_cons

@[simp] theorem chainSize_append : chainSize (m ++ m') = chainSize m + chainSize m' := by
  simp [chainSize]

/-- A chain has as many bytes as its lengths say. -/
theorem length_chainBytes : (chainBytes m).length = chainLen m := by
  induction m with
  | nil => rfl
  | cons x m ih => rw [chainBytes_cons, List.length_append, ih, chainLen_cons, Mbuf.mLen]

theorem size_pos : 0 < x.size := by
  unfold Mbuf.size mSIZE
  omega

end

/-! ## Trimming -/

/-- The head loop of `m_adj`: the chain, and what is left of the length. -/
def mAdjHead : (len : ℕ) → List Mbuf → List Mbuf × ℕ
  | len, [] => ([], len)
  | len, m :: rest =>
      if len = 0 then (m :: rest, 0)
      else if m.mLen ≤ len then
        let (rest, len) := mAdjHead (len - m.mLen) rest
        ({ m with bytes := [] } :: rest, len)
      else ({ m with mData := m.mData + len, bytes := m.bytes.drop len } :: rest, 0)

/-- The tail loops of `m_adj`: keep the first `count` bytes. -/
def mAdjCount : (count : ℕ) → List Mbuf → List Mbuf
  | _, [] => []
  | count, m :: rest =>
      if count ≤ m.mLen then
        { m with bytes := m.bytes.take count } :: rest.map fun m => { m with bytes := [] }
      else m :: mAdjCount (count - m.mLen) rest

/-- Change `m_pkthdr.len` of the first mbuf. -/
def setPkthdr (f : ℤ → ℤ) : List Mbuf → List Mbuf
  | [] => []
  | m :: rest => { m with mPkthdr := m.mPkthdr.map f } :: rest

/-- `m_adj`. -/
def mAdj (mp : List Mbuf) (reqLen : ℤ) : List Mbuf :=
  match mp.getLast? with
  | none => []
  | some last =>
      if 0 ≤ reqLen then
        let (m, len) := mAdjHead reqLen.toNat mp
        setPkthdr (fun l => l - (reqLen - len)) m
      else
        let len := (-reqLen).toNat
        if len ≤ last.mLen then
          setPkthdr (fun l => l - len)
            (mp.dropLast ++ [{ last with bytes := last.bytes.take (last.mLen - len) }])
        else
          let count := chainLen mp - len
          mAdjCount count (setPkthdr (fun _ => count) mp)

section

variable (m : List Mbuf)

theorem length_mAdjHead (len : ℕ) : (mAdjHead len m).1.length = m.length := by
  induction m generalizing len with
  | nil => rfl
  | cons x m ih =>
      rw [mAdjHead]
      split_ifs
      · rfl
      · exact congrArg Nat.succ (ih _)
      · rfl

theorem length_mAdjCount (count : ℕ) : (mAdjCount count m).length = m.length := by
  induction m generalizing count with
  | nil => rfl
  | cons x m ih =>
      rw [mAdjCount]
      split_ifs
      · rw [List.length_cons, List.length_map, List.length_cons]
      · exact congrArg Nat.succ (ih _)

theorem length_setPkthdr (f : ℤ → ℤ) : (setPkthdr f m).length = m.length := by
  cases m <;> rfl

/-- `m_adj` frees no mbuf. -/
theorem length_mAdj (reqLen : ℤ) : (mAdj m reqLen).length = m.length := by
  unfold mAdj
  cases hlast : m.getLast? with
  | none => rw [List.getLast?_eq_none_iff.mp hlast, List.length_nil]
  | some last =>
      have hne : m ≠ [] := by
        rintro rfl
        cases hlast
      have hpos := List.length_pos_iff.mpr hne
      dsimp only
      split_ifs
      · rw [length_setPkthdr, length_mAdjHead]
      · rw [length_setPkthdr, List.length_append, List.length_dropLast, List.length_singleton]
        omega
      · rw [length_mAdjCount, length_setPkthdr]

end

/-- What `m_adj` does to the bytes of a chain. -/
def adjust {α : Type*} (l : List α) (reqLen : ℤ) : List α :=
  if 0 ≤ reqLen then l.drop reqLen.toNat else l.take (l.length - (-reqLen).toNat)

theorem map_adjust {α β : Type*} (f : α → β) (l : List α) (reqLen : ℤ) :
    (adjust l reqLen).map f = adjust (l.map f) reqLen := by
  unfold adjust
  split
  · rw [List.map_drop]
  · rw [List.map_take, List.length_map]

@[simp] theorem chainBytes_setPkthdr (f : ℤ → ℤ) (m : List Mbuf) :
    chainBytes (setPkthdr f m) = chainBytes m := by
  cases m <;> simp [setPkthdr]

theorem chainBytes_mAdjHead (len : ℕ) (m : List Mbuf) :
    chainBytes (mAdjHead len m).1 = (chainBytes m).drop len := by
  induction m generalizing len with
  | nil => simp [mAdjHead]
  | cons x rest ih =>
      rw [mAdjHead]
      split
      · rename_i h
        rw [h, List.drop_zero]
      split
      · rename_i h
        rw [chainBytes_cons, chainBytes_cons, List.nil_append, ih, List.drop_append,
          List.drop_of_length_le h, List.nil_append, Mbuf.mLen]
      · rename_i h
        rw [chainBytes_cons, chainBytes_cons, List.drop_append_of_le_length]
        exact Nat.le_of_not_le h

theorem chainBytes_mAdjCount (count : ℕ) (m : List Mbuf) :
    chainBytes (mAdjCount count m) = (chainBytes m).take count := by
  induction m generalizing count with
  | nil => simp [mAdjCount]
  | cons x rest ih =>
      rw [mAdjCount]
      split
      · rename_i h
        have hnil : chainBytes (rest.map fun m => { m with bytes := [] }) = [] := by
          simp [chainBytes, List.flatMap_eq_nil_iff]
        rw [chainBytes_cons, hnil, List.append_nil, chainBytes_cons, List.take_append_of_le_length h]
      · rename_i h
        rw [chainBytes_cons, chainBytes_cons, ih, List.take_append,
          List.take_of_length_le (Nat.le_of_not_le h), Mbuf.mLen]

theorem chainBytes_mAdj (m : List Mbuf) (reqLen : ℤ) :
    chainBytes (mAdj m reqLen) = adjust (chainBytes m) reqLen := by
  unfold mAdj adjust
  rcases List.eq_nil_or_concat m with rfl | ⟨front, last, rfl⟩
  · simp
  rw [List.concat_eq_append, List.getLast?_append, List.getLast?_singleton]
  simp only [Option.some_or]
  split
  · rw [chainBytes_setPkthdr, chainBytes_mAdjHead]
  split
  · -- only the last mbuf is cut
    rename_i h
    unfold Mbuf.mLen at h ⊢
    rw [chainBytes_setPkthdr, List.dropLast_concat, chainBytes_append, chainBytes_append,
      chainBytes_cons, chainBytes_cons, chainBytes_nil, List.append_nil, List.append_nil,
      List.length_append, List.take_append, List.take_of_length_le (l := chainBytes front) (by omega)]
    have hk : (chainBytes front).length + last.bytes.length - (-reqLen).toNat -
        (chainBytes front).length = last.bytes.length - (-reqLen).toNat := by omega
    rw [hk]
  · rw [chainBytes_mAdjCount, chainBytes_setPkthdr, length_chainBytes]

end Shaunos.Net
