import Mathlib
import Shaunos.Net.IpReass

/-!
# Mbufs with their memory

Reference: `Include/kernel/mbuf.h` (`struct mbuf`, `MH_ALIGN`, `M_MOVE_PKTHDR`), `Kernel/mbuf.c` (`m_get`, `m_gethdr`,
`m_clget`, `m_leadingspace`, `m_prepend`, `m_cat`, `m_devget`).

An mbuf here has all of its memory, so that `m_data` can be anywhere and what is not in the `m_len` bytes from
there on is there too. Nothing that is written is in a cluster that somebody else has: `m_cat` copies into no cluster,
`m_prepend` only moves `m_data`, and those of `m_devget` are new. All sums are far below `2 ^ 31`.

* `mCat_bytes`, `mPrepend_right`, `mDevget_right` — what each makes of the bytes of a chain;
* `mCat_toMbuf` — `m_cat` on the bytes only.
-/

namespace Shaunos.Net.Raw

/-! ## The code -/

def mBCAST : BitVec 16 := 1
def mEOR : BitVec 16 := 2
def mEXT : BitVec 16 := 4
def mMCAST : BitVec 16 := 8
def mPKTHDR : BitVec 16 := 16
def mCLUSTER : BitVec 16 := 32
def mCOPYFLAGS : BitVec 16 := mPKTHDR ||| mEOR ||| mBCAST ||| mMCAST

def mHLEN : ℤ := 100
def mINCLSIZE : ℤ := 208
def mtDATA : ℤ := 1

/-- Where `m_pktdat` starts in `m_dat`. -/
def mPktdat : ℤ := 8

/-- `struct pkthdr`. -/
structure Pkthdr (φ : Type*) where
  len : ℤ
  rcvif : Option φ

/-- `struct mbuf`. -/
structure Mbuf (φ : Type*) where
  mType : ℤ
  mFlags : BitVec 16
  mPkthdr : Pkthdr φ
  /-- The memory from `m_dat` on, or from `m_ext.ext_buf` on. -/
  store : ℤ → Byte
  /-- Where `m_data` is in there. -/
  mData : ℤ
  mLen : ℤ

variable {φ : Type*}

namespace Mbuf

variable (m : Mbuf φ)

/-- Whether a flag is set. -/
def Is (f : BitVec 16) : Prop := m.mFlags &&& f ≠ 0

instance (f : BitVec 16) : Decidable (m.Is f) := inferInstanceAs (Decidable (_ ≠ _))

/-- `memcpy` to an address in the memory of `m`. -/
def write (dst : ℤ) (l : List Byte) : Mbuf φ :=
  { m with store := fun k => if dst ≤ k ∧ k < dst + l.length then l.getD (k - dst).toNat 0 else m.store k }

/-- What `memcpy` reads. -/
def read (off : ℤ) (len : ℕ) : List Byte := (List.range len).map fun i : ℕ => m.store (off + i)

/-- The `m_len` bytes at `m_data`. -/
def bytes : List Byte := m.read m.mData m.mLen.toNat

end Mbuf

/-- `m_get`. -/
def mGet (mType : ℤ) : Mbuf φ :=
  { mType := mType, mFlags := 0, mPkthdr := ⟨0, none⟩, store := fun _ => 0, mData := 0, mLen := 0 }

/-- `m_gethdr`. -/
def mGethdr (mType : ℤ) : Mbuf φ :=
  { mType := mType, mFlags := mPKTHDR, mPkthdr := ⟨0, none⟩, store := fun _ => 0, mData := mPktdat, mLen := 0 }

/-- `m_clget`, if there is memory. -/
def Mbuf.clget (m : Mbuf φ) : Mbuf φ := { m with store := fun _ => 0, mData := 0, mFlags := m.mFlags ||| mEXT }

/-- `m_leadingspace`. -/
def mLeadingspace (m : Mbuf φ) : ℤ :=
  if m.Is mEXT then m.mData else if m.Is mPKTHDR then m.mData - mPktdat else m.mData

/-- `M_MOVE_PKTHDR`: what is behind `to` and `from`. -/
def mMovePkthdr (mn m : Mbuf φ) : Mbuf φ × Mbuf φ :=
  let mn := { mn with
    mFlags := (mn.mFlags &&& (mEXT ||| mCLUSTER)) ||| (m.mFlags &&& mCOPYFLAGS), mPkthdr := m.mPkthdr }
  let m := { m with mFlags := m.mFlags &&& ~~~mPKTHDR }
  if mn.Is mEXT then (mn, m) else ({ mn with mData := mPktdat }, m)

/-- `MH_ALIGN`. -/
def mhAlign (m : Mbuf φ) (len : ℤ) : Mbuf φ := { m with mData := m.mData + (mHLEN - len) / 4 * 4 }

/-- What `m_prepend` adds to `m_pkthdr.len`. -/
def Mbuf.addLen (m : Mbuf φ) (len : ℤ) : Mbuf φ :=
  if m.Is mPKTHDR then { m with mPkthdr := { m.mPkthdr with len := m.mPkthdr.len + len } } else m

/-- `m_prepend`, for the chain of `m` and `next`. With `get`, `MGET` finds memory, and else the chain is freed. -/
def mPrepend (get : Bool) (m : Mbuf φ) (next : List (Mbuf φ)) (len : ℤ) : Option (List (Mbuf φ)) :=
  if len ≤ mLeadingspace m then some (Mbuf.addLen { m with mData := m.mData - len, mLen := m.mLen + len } len :: next)
  else if get then
    let (mn, m) := if m.Is mPKTHDR then mMovePkthdr (mGet m.mType) m else (mGet m.mType, m)
    some (Mbuf.addLen { mhAlign mn len with mLen := len } len :: m :: next)
  else none

/-- The second loop of `m_cat`: the chain from `m` on, and which mbufs are freed. -/
def mCatLoop (m : Mbuf φ) : List (Mbuf φ) → List (Mbuf φ) × List (Mbuf φ)
  | [] => ([m], [])
  | n :: next =>
      if m.Is mEXT ∨ mLEN ≤ m.mData + m.mLen + n.mLen then (m :: n :: next, [])
      else
        let m := { m.write (m.mData + m.mLen) n.bytes with mLen := m.mLen + n.mLen }
        ((mCatLoop m next).1, n :: (mCatLoop m next).2)

/-- `m_cat`, for the chain of `m` and `next`. -/
def mCat (m : Mbuf φ) : (next n : List (Mbuf φ)) → List (Mbuf φ) × List (Mbuf φ)
  | [], n => mCatLoop m n
  | m' :: next, n => (m :: (mCat m' next n).1, (mCat m' next n).2)

/-- What `m_devget` does with one mbuf, which has `len` bytes, before it copies. -/
def devgetPlace (first : Bool) (m : Mbuf φ) (len totlen off : ℤ) : Mbuf φ :=
  let (m, len) :=
    if mINCLSIZE ≤ totlen + off then (m.clget, (mCLBYTES : ℤ))
    else if first ∧ totlen + off + maxLinkhdr ≤ len then ({ m with mData := m.mData + maxLinkhdr }, len - maxLinkhdr)
    else (m, len)
  let (m, len) := if off ≠ 0 then ({ m with mData := m.mData + off }, len - off) else (m, len)
  { m with mLen := min totlen len }

/-- The loop of `m_devget`, for the bytes that are left. `mem i` says whether the `i`th allocation finds memory; without
it `m_get` leads to NULL and `m_clget` to a null pointer. `copy` gives the bytes that arrive. -/
def devgetLoop (mem : ℕ → Bool) (copy : List Byte → List Byte) :
    (fuel i : ℕ) → (top : List (Mbuf φ)) → (m : Mbuf φ) → (len off : ℤ) → (buf : List Byte) → Option (List (Mbuf φ))
  | 0, _, _, _, _, _, _ => none
  | fuel + 1, i, top, m, len, off, buf =>
      if buf = [] then some top
      else if top ≠ [] ∧ ¬ mem i then some []
      else
        let (i, m, len) := if top ≠ [] then (i + 1, mGet mtDATA, (mLEN : ℤ)) else (i, m, len)
        if mINCLSIZE ≤ buf.length + off ∧ ¬ mem i then none
        else
          let i := if mINCLSIZE ≤ buf.length + off then i + 1 else i
          let m := devgetPlace (decide (top = [])) m len buf.length off
          let m := m.write m.mData (copy (buf.take m.mLen.toNat))
          devgetLoop mem copy fuel i (top ++ [m]) m m.mLen 0 (buf.drop m.mLen.toNat)

/-- `m_devget`, for a buffer of `totlen` bytes. -/
def mDevget (mem : ℕ → Bool) (copy : Option (List Byte → List Byte)) (ifp : φ) (buf : List Byte) (off : ℤ) :
    Option (List (Mbuf φ)) :=
  if off < 0 ∨ mHLEN < off then some []
  else if ¬ mem 0 then some []
  else
    devgetLoop mem (copy.getD id) (buf.length + 2) 1 []
      { (mGethdr mtDATA : Mbuf φ) with mPkthdr := ⟨buf.length, some ifp⟩ } mHLEN off buf

/-! ## What should happen -/

/-- The bytes of a chain. -/
def bytesOf (c : List (Mbuf φ)) : List Byte := c.flatMap Mbuf.bytes

/-- The header, if there is one. -/
def Mbuf.hdr (m : Mbuf φ) : Option (Pkthdr φ) := if m.Is mPKTHDR then some m.mPkthdr else none

/-- The headers in a chain. -/
def hdrsOf (c : List (Mbuf φ)) : List (Pkthdr φ) := c.filterMap Mbuf.hdr

/-- Where the memory for data starts. -/
def Mbuf.base (m : Mbuf φ) : ℤ := if ¬ m.Is mEXT ∧ m.Is mPKTHDR then mPktdat else 0

/-- The data is inside of the cluster, of `m_pktdat`, or of `m_dat`. -/
structure Mbuf.InStorage (m : Mbuf φ) : Prop where
  low : m.base ≤ m.mData
  len : 0 ≤ m.mLen
  high : m.mData + m.mLen ≤ if m.Is mEXT then mCLBYTES else mLEN

/-- All mbufs of a chain. -/
def Inside (c : List (Mbuf φ)) : Prop := ∀ m ∈ c, m.InStorage

/-- The bytes of the one and then those of the other. -/
def CatRight (m : Mbuf φ) (next n : List (Mbuf φ)) : Prop :=
  bytesOf (mCat m next n).1 = bytesOf (m :: next) ++ bytesOf n ∧ Inside (mCat m next n).1

/-- `len` new bytes, and a header only in front. -/
def PrependRight (m : Mbuf φ) (next : List (Mbuf φ)) (len : ℤ) : Prop :=
  ∃ m' next' new, mPrepend true m next len = some (m' :: next') ∧ new.length = len.toNat ∧
    bytesOf (m' :: next') = new ++ bytesOf (m :: next) ∧ Inside (m' :: next') ∧
    m'.hdr = m.hdr.map (fun h => { h with len := h.len + len }) ∧ hdrsOf next' = hdrsOf next

/-- All bytes of the buffer, with a header. -/
def DevgetRight (copy : Option (List Byte → List Byte)) (ifp : φ) (buf : List Byte) (off : ℤ) : Prop :=
  ∃ top, mDevget (fun _ => true) copy ifp buf off = some top ∧ bytesOf top = buf ∧ Inside top ∧
    hdrsOf top = if buf = [] then [] else [⟨buf.length, some ifp⟩]

section

variable {m n : Mbuf φ} {c next : List (Mbuf φ)} {l : List Byte} {k len off : ℤ}

@[simp] theorem bytesOf_nil : bytesOf ([] : List (Mbuf φ)) = [] := rfl

@[simp] theorem bytesOf_cons : bytesOf (m :: c) = m.bytes ++ bytesOf c := List.flatMap_cons

@[simp] theorem bytesOf_append (c d : List (Mbuf φ)) : bytesOf (c ++ d) = bytesOf c ++ bytesOf d := List.flatMap_append

theorem Inside.cons (h : m.InStorage) (hc : Inside c) : Inside (m :: c) := List.forall_mem_cons.mpr ⟨h, hc⟩

theorem inside_cons : Inside (m :: c) ↔ m.InStorage ∧ Inside c := List.forall_mem_cons

theorem hdrsOf_cons_none (h : m.hdr = none) : hdrsOf (m :: c) = hdrsOf c := List.filterMap_cons_none h

theorem hdrsOf_cons_some {x : Pkthdr φ} (h : m.hdr = some x) : hdrsOf (m :: c) = x :: hdrsOf c :=
  List.filterMap_cons_some h

/-! ## The memory of one mbuf -/

@[simp] theorem length_read (m : Mbuf φ) (off : ℤ) (len : ℕ) : (m.read off len).length = len := by
  rw [Mbuf.read, List.length_map, List.length_range]

theorem length_bytes (m : Mbuf φ) : m.bytes.length = m.mLen.toNat := length_read m _ _

/-- What lies behind other bytes. -/
theorem read_add (m : Mbuf φ) (off : ℤ) (a b : ℕ) : m.read off (a + b) = m.read off a ++ m.read (off + a) b := by
  rw [Mbuf.read, List.range_add, List.map_append, List.map_map]
  refine congrArg (m.read off a ++ ·) (List.map_congr_left fun i _ => ?_)
  change m.store (off + ((a + i : ℕ) : ℤ)) = m.store (off + a + i)
  rw [Nat.cast_add, add_assoc]

/-- Two mbufs with the same memory there. -/
theorem read_congr {a b : ℕ} {off' : ℤ} (hab : a = b) (h : ∀ i < a, m.store (off + i) = n.store (off' + i)) :
    m.read off a = n.read off' b := by
  subst hab
  exact List.map_congr_left fun i hi => h i (List.mem_range.mp hi)

/-- What was written. -/
theorem read_write (m : Mbuf φ) (dst : ℤ) (l : List Byte) : (m.write dst l).read dst l.length = l := by
  refine List.ext_getElem (length_read _ _ _) fun i _ hi => ?_
  simp only [Mbuf.read, Mbuf.write, List.getElem_map, List.getElem_range]
  rw [if_pos (by omega), show (dst + (i : ℤ) - dst).toNat = i by omega, List.getD_eq_getElem _ _ hi]

/-- What was there before stays in front of it. -/
theorem read_write_of_le {dst : ℤ} {a : ℕ} (h : off + a ≤ dst) : (m.write dst l).read off a = m.read off a := by
  refine read_congr rfl fun i hi => ?_
  change (if _ then _ else _) = _
  exact if_neg (by omega)

/-! ## `m_cat` -/

/-- The bytes of `n` behind those of `m`. -/
theorem bytes_splat (hm : m.InStorage) (hn : n.InStorage) :
    Mbuf.bytes { m.write (m.mData + m.mLen) n.bytes with mLen := m.mLen + n.mLen } = m.bytes ++ n.bytes := by
  have hm' := hm.len
  have hn' := hn.len
  change (m.write (m.mData + m.mLen) n.bytes).read m.mData (m.mLen + n.mLen).toNat = m.bytes ++ n.bytes
  rw [Int.toNat_add hm' hn', read_add, read_write_of_le (by omega), Int.toNat_of_nonneg hm', ← length_bytes n,
    read_write]
  rfl

theorem inStorage_splat (hm : m.InStorage) (hn : n.InStorage)
    (hroom : ¬ (m.Is mEXT ∨ mLEN ≤ m.mData + m.mLen + n.mLen)) :
    Mbuf.InStorage { m.write (m.mData + m.mLen) n.bytes with mLen := m.mLen + n.mLen } where
  low := hm.low
  len := add_nonneg hm.len hn.len
  high := by
    obtain ⟨hext, hlt⟩ := not_or.mp hroom
    have hext' : ¬ Mbuf.Is { m.write (m.mData + m.mLen) n.bytes with mLen := m.mLen + n.mLen } mEXT := hext
    rw [if_neg hext']
    change m.mData + (m.mLen + n.mLen) ≤ mLEN
    omega

theorem mCatLoop_right (hm : m.InStorage) (hc : Inside c) :
    bytesOf (mCatLoop m c).1 = m.bytes ++ bytesOf c ∧ Inside (mCatLoop m c).1 := by
  induction c generalizing m with
  | nil => exact ⟨bytesOf_cons, Inside.cons hm hc⟩
  | cons n next ih =>
      obtain ⟨hn, hnext⟩ := inside_cons.mp hc
      rw [mCatLoop]
      by_cases hroom : m.Is mEXT ∨ mLEN ≤ m.mData + m.mLen + n.mLen
      · rw [if_pos hroom]
        exact ⟨bytesOf_cons, Inside.cons hm hc⟩
      · rw [if_neg hroom]
        obtain ⟨hbytes, hin⟩ := ih (inStorage_splat hm hn hroom) hnext
        refine ⟨?_, hin⟩
        rw [bytes_splat hm hn, List.append_assoc, ← bytesOf_cons] at hbytes
        exact hbytes

theorem mCat_right (hm : Inside (m :: next)) (hc : Inside c) : CatRight m next c := by
  induction next generalizing m with
  | nil =>
      obtain ⟨hbytes, hin⟩ := mCatLoop_right (inside_cons.mp hm).1 hc
      refine ⟨?_, hin⟩
      rw [bytesOf_cons, bytesOf_nil, List.append_nil]
      exact hbytes
  | cons m' next ih =>
      obtain ⟨hm, hnext⟩ := inside_cons.mp hm
      obtain ⟨hbytes, hin⟩ := ih hnext
      refine ⟨?_, Inside.cons hm hin⟩
      rw [mCat, bytesOf_cons, hbytes, bytesOf_cons (m := m), List.append_assoc]

/-! ## `m_prepend` -/

theorem and_and_of_eq {f a b : BitVec 16} (h : a &&& b = b) : f &&& a &&& b = f &&& b := by rw [BitVec.and_assoc, h]

theorem and_and_of_zero {f a b : BitVec 16} (h : a &&& b = 0) : f &&& a &&& b = 0 := by
  rw [BitVec.and_assoc, h]
  exact BitVec.and_zero

@[simp] theorem bytes_addLen (m : Mbuf φ) (len : ℤ) : (m.addLen len).bytes = m.bytes := by
  rw [Mbuf.addLen]
  split_ifs
  · rfl
  · rfl

theorem Mbuf.InStorage.addLen (h : m.InStorage) (len : ℤ) : (m.addLen len).InStorage := by
  rw [Mbuf.addLen]
  split_ifs
  · exact ⟨h.low, h.len, h.high⟩
  · exact h

theorem hdr_addLen (m : Mbuf φ) (len : ℤ) : (m.addLen len).hdr = m.hdr.map fun h => { h with len := h.len + len } := by
  by_cases h : m.Is mPKTHDR
  · have hset : Mbuf.Is { m with mPkthdr := { m.mPkthdr with len := m.mPkthdr.len + len } } mPKTHDR := h
    rw [Mbuf.addLen, if_pos h, Mbuf.hdr, if_pos hset, Mbuf.hdr, if_pos h]
    rfl
  · rw [Mbuf.addLen, if_neg h, Mbuf.hdr, if_neg h]
    rfl

theorem mLeadingspace_eq (m : Mbuf φ) : mLeadingspace m = m.mData - m.base := by
  by_cases hext : m.Is mEXT
  · rw [mLeadingspace, if_pos hext, Mbuf.base, if_neg fun h => h.1 hext, sub_zero]
  · by_cases hhdr : m.Is mPKTHDR
    · rw [mLeadingspace, if_neg hext, if_pos hhdr, Mbuf.base, if_pos ⟨hext, hhdr⟩]
    · rw [mLeadingspace, if_neg hext, if_neg hhdr, Mbuf.base, if_neg fun h => hhdr h.2, sub_zero]

/-- There is room in front of the data. -/
theorem prependRight_of_space (hm : Inside (m :: next)) (hlen : 0 ≤ len) (hroom : len ≤ mLeadingspace m) :
    PrependRight m next len := by
  obtain ⟨hm, hnext⟩ := inside_cons.mp hm
  have hm' := hm.len
  refine ⟨_, next, m.read (m.mData - len) len.toNat, if_pos hroom, length_read _ _ _, ?_, Inside.cons ?_ hnext, ?_, rfl⟩
  · have hbytes : Mbuf.bytes { m with mData := m.mData - len, mLen := m.mLen + len } =
        m.read (m.mData - len) len.toNat ++ m.bytes := by
      change m.read (m.mData - len) (m.mLen + len).toNat = _
      rw [add_comm m.mLen, Int.toNat_add hlen hm', read_add, Int.toNat_of_nonneg hlen, sub_add_cancel]
      rfl
    rw [bytesOf_cons, bytes_addLen, hbytes, bytesOf_cons, List.append_assoc]
  · have hlow := hm.low
    have hhigh := hm.high
    refine Mbuf.InStorage.addLen ⟨?_, add_nonneg hm' hlen, ?_⟩ len
    · rw [mLeadingspace_eq] at hroom
      change m.base ≤ m.mData - len
      omega
    · change m.mData - len + (m.mLen + len) ≤ if m.Is mEXT then mCLBYTES else mLEN
      rwa [add_comm m.mLen, ← add_assoc, sub_add_cancel]
  · exact hdr_addLen _ _

/-- Both mbufs, when the header goes from the one to the other. -/
theorem mMovePkthdr_mGet (m : Mbuf φ) :
    mMovePkthdr (mGet m.mType) m =
      ({ (mGet m.mType : Mbuf φ) with mFlags := m.mFlags &&& mCOPYFLAGS, mPkthdr := m.mPkthdr, mData := mPktdat },
        { m with mFlags := m.mFlags &&& ~~~mPKTHDR }) := by
  have hflags : (0 : BitVec 16) &&& (mEXT ||| mCLUSTER) ||| m.mFlags &&& mCOPYFLAGS = m.mFlags &&& mCOPYFLAGS := by
    exact (congrArg (· ||| _) BitVec.zero_and).trans BitVec.zero_or
  have hext : m.mFlags &&& mCOPYFLAGS &&& mEXT = 0 := and_and_of_zero (by decide)
  rw [mMovePkthdr]
  simp only [mGet, Mbuf.Is, hflags]
  rw [if_neg (not_not.mpr hext)]

/-- An mbuf without its header. -/
theorem inStorage_clear (h : m.InStorage) : Mbuf.InStorage { m with mFlags := m.mFlags &&& ~~~mPKTHDR } := by
  have hext : Mbuf.Is { m with mFlags := m.mFlags &&& ~~~mPKTHDR } mEXT ↔ m.Is mEXT := by
    change m.mFlags &&& ~~~mPKTHDR &&& mEXT ≠ 0 ↔ m.mFlags &&& mEXT ≠ 0
    rw [and_and_of_eq (by decide)]
  have hhdr : ¬ Mbuf.Is { m with mFlags := m.mFlags &&& ~~~mPKTHDR } mPKTHDR :=
    not_not.mpr (and_and_of_zero (by decide))
  refine ⟨?_, h.len, ?_⟩
  · have hbase : 0 ≤ m.base := by
      rw [Mbuf.base]
      split_ifs
      · decide
      · rfl
    rw [Mbuf.base, if_neg fun h => hhdr h.2]
    exact hbase.trans h.low
  · have hhigh := h.high
    rw [if_congr hext rfl rfl]
    exact hhigh

theorem hdr_clear (m : Mbuf φ) : Mbuf.hdr { m with mFlags := m.mFlags &&& ~~~mPKTHDR } = none :=
  if_neg (not_not.mpr (and_and_of_zero (by decide)))

theorem not_is_mGet (t : ℤ) (f : BitVec 16) : ¬ (mGet t : Mbuf φ).Is f := not_not.mpr BitVec.zero_and

theorem base_mGet (t : ℤ) : (mGet t : Mbuf φ).base = 0 := if_neg fun h => not_is_mGet t mPKTHDR h.2

/-- Up to `MHLEN` bytes fit into a new mbuf. -/
theorem inStorage_mhAlign (hlow : m.base ≤ m.mData) (hdata : m.mData ≤ mPktdat) (hext : ¬ m.Is mEXT)
    (hlen : 0 ≤ len) (hle : len ≤ mHLEN) : Mbuf.InStorage { mhAlign m len with mLen := len } := by
  have hext' : ¬ Mbuf.Is { mhAlign m len with mLen := len } mEXT := hext
  have hsum : mPktdat + mHLEN = mLEN := rfl
  refine ⟨?_, hlen, ?_⟩
  · change m.base ≤ m.mData + (mHLEN - len) / 4 * 4
    omega
  · rw [if_neg hext']
    change m.mData + (mHLEN - len) / 4 * 4 + len ≤ mLEN
    omega

/-- There is a new mbuf in front. -/
theorem prependRight_of_le (hm : Inside (m :: next)) (hlen : 0 ≤ len) (hroom : ¬ len ≤ mLeadingspace m)
    (hle : len ≤ mHLEN) : PrependRight m next len := by
  obtain ⟨hm, hnext⟩ := inside_cons.mp hm
  by_cases hhdr : m.Is mPKTHDR
  · let mn : Mbuf φ :=
      { (mGet m.mType : Mbuf φ) with mFlags := m.mFlags &&& mCOPYFLAGS, mPkthdr := m.mPkthdr, mData := mPktdat }
    have hext : ¬ mn.Is mEXT := not_not.mpr (and_and_of_zero (by decide))
    have hset : mn.Is mPKTHDR := by
      change m.mFlags &&& mCOPYFLAGS &&& mPKTHDR ≠ 0
      rwa [and_and_of_eq (by decide)]
    have hmn : mn.hdr = m.hdr := by
      rw [Mbuf.hdr, if_pos hset, Mbuf.hdr, if_pos hhdr]
    have hlow : mn.base ≤ mn.mData := by
      rw [Mbuf.base, if_pos ⟨hext, hset⟩]
    have hnew := inStorage_mhAlign hlow le_rfl hext hlen hle
    refine ⟨Mbuf.addLen { mhAlign mn len with mLen := len } len, { m with mFlags := m.mFlags &&& ~~~mPKTHDR } :: next,
      Mbuf.bytes { mhAlign mn len with mLen := len }, ?_, length_bytes _, ?_, ?_, ?_, hdrsOf_cons_none (hdr_clear m)⟩
    · rw [mPrepend, if_neg hroom, if_pos rfl, if_pos hhdr, mMovePkthdr_mGet]
    · rw [bytesOf_cons, bytes_addLen, bytesOf_cons, bytesOf_cons]
      rfl
    · exact Inside.cons (hnew.addLen len) (Inside.cons (inStorage_clear hm) hnext)
    · rw [hdr_addLen]
      exact congrArg (Option.map _) hmn
  · let mn : Mbuf φ := mGet m.mType
    have hnew : Mbuf.InStorage { mhAlign mn len with mLen := len } :=
      inStorage_mhAlign (base_mGet _).le (show (0 : ℤ) ≤ 8 by decide) (not_is_mGet _ _) hlen hle
    have hmhdr : m.hdr = none := if_neg hhdr
    have hmn : Mbuf.hdr { mhAlign mn len with mLen := len } = none :=
      if_neg (show ¬ mn.Is mPKTHDR from not_is_mGet _ _)
    refine ⟨Mbuf.addLen { mhAlign mn len with mLen := len } len, m :: next,
      Mbuf.bytes { mhAlign mn len with mLen := len }, ?_, length_bytes _, ?_, ?_, ?_, hdrsOf_cons_none hmhdr⟩
    · rw [mPrepend, if_neg hroom, if_pos rfl, if_neg hhdr]
    · rw [bytesOf_cons, bytes_addLen]
    · exact Inside.cons (hnew.addLen len) (Inside.cons hm hnext)
    · rw [hdr_addLen, hmhdr, hmn]

theorem mPrepend_right (hm : Inside (m :: next)) (hlen : 0 ≤ len) (hroom : len ≤ mLeadingspace m ∨ len ≤ mHLEN) :
    PrependRight m next len := by
  by_cases hspace : len ≤ mLeadingspace m
  · exact prependRight_of_space hm hlen hspace
  · exact prependRight_of_le hm hlen hspace (hroom.resolve_left hspace)

/-! ## `m_devget` -/

/-- Where the data goes: into a cluster, behind room for a link header, or to the front. -/
theorem devgetPlace_eq (first : Bool) (m : Mbuf φ) (len totlen off : ℤ) :
    devgetPlace first m len totlen off =
      if mINCLSIZE ≤ totlen + off then { m.clget with mData := 0 + off, mLen := min totlen (mCLBYTES - off) }
      else if first ∧ totlen + off + maxLinkhdr ≤ len then
        { m with mData := m.mData + maxLinkhdr + off, mLen := min totlen (len - maxLinkhdr - off) }
      else { m with mData := m.mData + off, mLen := min totlen (len - off) } := by
  unfold devgetPlace
  by_cases hoff : off = 0
  · subst hoff
    simp only [ne_eq, not_true_eq_false, if_false, add_zero, sub_zero]
    split_ifs
    · rfl
    · rfl
    · rfl
  · simp only [ne_eq, hoff, not_false_eq_true, if_true]
    split_ifs
    · rfl
    · rfl
    · rfl

/-- A part of the buffer in an mbuf. -/
structure Placed (m : Mbuf φ) (totlen : ℤ) (hdr : Option (Pkthdr φ)) : Prop where
  inStorage : m.InStorage
  le : m.mLen ≤ totlen
  hdr : m.hdr = hdr

theorem is_clget_ext (m : Mbuf φ) : m.clget.Is mEXT := by
  change (m.mFlags ||| mEXT) &&& mEXT ≠ 0
  intro h
  have hbit := congrArg (BitVec.getLsbD · 2) h
  rw [BitVec.getLsbD_and, BitVec.getLsbD_or, show mEXT.getLsbD 2 = true from rfl, Bool.or_true] at hbit
  exact absurd hbit (by decide)

theorem inStorage_of_ext (hext : m.Is mEXT) (hlow : 0 ≤ m.mData) (hlen : 0 ≤ m.mLen)
    (hhigh : m.mData + m.mLen ≤ mCLBYTES) : m.InStorage := by
  refine ⟨?_, hlen, ?_⟩
  · rwa [Mbuf.base, if_neg fun h => h.1 hext]
  · rwa [if_pos hext]

theorem inStorage_of_not_ext (hext : ¬ m.Is mEXT) (hlow : m.base ≤ m.mData) (hlen : 0 ≤ m.mLen)
    (hhigh : m.mData + m.mLen ≤ mLEN) : m.InStorage := by
  refine ⟨hlow, hlen, ?_⟩
  rwa [if_neg hext]

/-- An mbuf that is not the first one gets at least one byte. -/
theorem placed_rest {totlen : ℤ} (hpos : 0 < totlen) :
    Placed (devgetPlace false (mGet mtDATA : Mbuf φ) mLEN totlen 0) totlen none ∧
      0 < (devgetPlace false (mGet mtDATA : Mbuf φ) mLEN totlen 0).mLen := by
  have hLEN : (mLEN : ℤ) = 108 := rfl
  have hCL : (mCLBYTES : ℤ) = 2048 := rfl
  rw [devgetPlace_eq]
  by_cases hcl : mINCLSIZE ≤ totlen + 0
  · rw [if_pos hcl]
    have hnone : ¬ (0 ||| mEXT) &&& mPKTHDR ≠ 0 := by decide
    have hlen : 0 < min totlen (mCLBYTES - 0) := by omega
    refine ⟨⟨inStorage_of_ext (is_clget_ext _) (zero_add (0 : ℤ)).ge hlen.le ?_, min_le_left _ _, if_neg hnone⟩, hlen⟩
    change (0 + 0 : ℤ) + min totlen _ ≤ _
    omega
  · rw [if_neg hcl, if_neg (by rintro ⟨h, -⟩; cases h)]
    have hlen : 0 < min totlen (mLEN - 0) := by omega
    have hhigh : (0 + 0 : ℤ) + min totlen (mLEN - 0) ≤ mLEN := by omega
    have hext : ¬ (mGet mtDATA : Mbuf φ).Is mEXT := not_is_mGet _ _
    have hhdr : ¬ (mGet mtDATA : Mbuf φ).Is mPKTHDR := not_is_mGet _ _
    have hbase : (mGet mtDATA : Mbuf φ).base = 0 := base_mGet _
    exact ⟨⟨inStorage_of_not_ext hext hbase.le hlen.le hhigh, min_le_left _ _, if_neg hhdr⟩, hlen⟩

/-- The first mbuf has the header. -/
theorem placed_first {totlen : ℤ} (hpos : 0 < totlen) (hoff : 0 ≤ off) (hle : off ≤ mHLEN) (h : Pkthdr φ) :
    Placed (devgetPlace true { (mGethdr mtDATA : Mbuf φ) with mPkthdr := h } mHLEN totlen off) totlen (some h) := by
  have hHLEN : mHLEN = 100 := rfl
  have hLEN : (mLEN : ℤ) = 108 := rfl
  have hCL : (mCLBYTES : ℤ) = 2048 := rfl
  have hdat : mPktdat = 8 := rfl
  have hlink : (maxLinkhdr : ℤ) = 16 := rfl
  have hset : (mGethdr mtDATA : Mbuf φ).Is mPKTHDR := show mPKTHDR &&& mPKTHDR ≠ 0 by decide
  have hext : ¬ (mGethdr mtDATA : Mbuf φ).Is mEXT := show ¬ mPKTHDR &&& mEXT ≠ 0 by decide
  have hbase : (mGethdr mtDATA : Mbuf φ).base = mPktdat := if_pos ⟨hext, hset⟩
  rw [devgetPlace_eq]
  by_cases hcl : mINCLSIZE ≤ totlen + off
  · rw [if_pos hcl]
    have hset' : (mPKTHDR ||| mEXT) &&& mPKTHDR ≠ 0 := by decide
    have hlen : 0 ≤ min totlen (mCLBYTES - off) := by omega
    have hhigh : 0 + off + min totlen (mCLBYTES - off) ≤ mCLBYTES := by omega
    have hlow : 0 ≤ 0 + off := by omega
    exact ⟨inStorage_of_ext (is_clget_ext _) hlow hlen hhigh, min_le_left _ _, if_pos hset'⟩
  · rw [if_neg hcl]
    by_cases hroom : true = true ∧ totlen + off + maxLinkhdr ≤ mHLEN
    · rw [if_pos hroom]
      have hlow : mPktdat ≤ mPktdat + maxLinkhdr + off := by omega
      have hlen : 0 ≤ min totlen (mHLEN - maxLinkhdr - off) := by omega
      have hhigh : mPktdat + maxLinkhdr + off + min totlen (mHLEN - maxLinkhdr - off) ≤ mLEN := by omega
      exact ⟨inStorage_of_not_ext hext (hbase.le.trans hlow) hlen hhigh, min_le_left _ _, if_pos hset⟩
    · rw [if_neg hroom]
      have hlow : mPktdat ≤ mPktdat + off := by omega
      have hlen : 0 ≤ min totlen (mHLEN - off) := by omega
      have hhigh : mPktdat + off + min totlen (mHLEN - off) ≤ mLEN := by omega
      exact ⟨inStorage_of_not_ext hext (hbase.le.trans hlow) hlen hhigh, min_le_left _ _, if_pos hset⟩

/-- What is copied into an mbuf. -/
theorem bytes_write_mData (m : Mbuf φ) (h : l.length = m.mLen.toNat) : (m.write m.mData l).bytes = l := by
  change (m.write m.mData l).read m.mData m.mLen.toNat = l
  rw [← h, read_write]

theorem Placed.write {totlen : ℤ} {h : Option (Pkthdr φ)} (hm : Placed m totlen h) (hl : l.length = m.mLen.toNat) :
    (m.write m.mData l).InStorage ∧ (m.write m.mData l).bytes = l ∧ (m.write m.mData l).hdr = h :=
  ⟨⟨hm.inStorage.low, hm.inStorage.len, hm.inStorage.high⟩, bytes_write_mData m hl, hm.hdr⟩

variable {buf : List Byte} {top : List (Mbuf φ)} {copy : List Byte → List Byte}

theorem length_take_of_placed {h : Option (Pkthdr φ)} (hm : Placed m buf.length h) (hcopy : ∀ l, copy l = l) :
    (copy (buf.take m.mLen.toNat)).length = m.mLen.toNat := by
  have hle := hm.le
  have hlen := hm.inStorage.len
  rw [hcopy, List.length_take]
  omega

/-- The mbufs behind the first one. -/
theorem devgetLoop_rest (hcopy : ∀ l, copy l = l) {fuel : ℕ} (hfuel : buf.length < fuel) (htop : top ≠ []) (i : ℕ)
    (m : Mbuf φ) (len : ℤ) :
    ∃ rest, devgetLoop (fun _ => true) copy fuel i top m len 0 buf = some (top ++ rest) ∧ bytesOf rest = buf ∧
      Inside rest ∧ hdrsOf rest = [] := by
  induction fuel generalizing buf top i m len with
  | zero => omega
  | succ fuel ih =>
      by_cases hnil : buf = []
      · subst hnil
        refine ⟨[], ?_, rfl, List.forall_mem_nil _, rfl⟩
        rw [devgetLoop, if_pos rfl, List.append_nil]
      have hpos : (0 : ℤ) < buf.length := by exact_mod_cast List.length_pos_iff.mpr hnil
      obtain ⟨hplaced, hsome⟩ := placed_rest (φ := φ) hpos
      generalize hm : devgetPlace false (mGet mtDATA : Mbuf φ) mLEN buf.length 0 = m' at hplaced hsome
      have hlength := length_take_of_placed hplaced hcopy
      obtain ⟨hin, hbytes, hhdr⟩ := hplaced.write hlength
      have hshort : (buf.drop m'.mLen.toNat).length < fuel := by
        rw [List.length_drop]
        omega
      have htop' : top ++ [m'.write m'.mData (copy (buf.take m'.mLen.toNat))] ≠ [] :=
        List.append_ne_nil_of_right_ne_nil _ (List.cons_ne_nil _ _)
      obtain ⟨rest, hrest, hall, hins, hhdrs⟩ := ih hshort htop'
        (if mINCLSIZE ≤ buf.length + 0 then i + 1 + 1 else i + 1) _
        (m'.write m'.mData (copy (buf.take m'.mLen.toNat))).mLen
      refine ⟨m'.write m'.mData (copy (buf.take m'.mLen.toNat)) :: rest, ?_, ?_, Inside.cons hin hins, ?_⟩
      · rw [devgetLoop, if_neg hnil, if_neg (fun h => h.2 rfl)]
        simp only [ne_eq, htop, not_false_eq_true, if_true, not_true_eq_false, and_false, if_false, decide_false]
        rw [hm]
        exact hrest.trans (congrArg some (List.append_assoc _ _ _))
      · rw [bytesOf_cons, hbytes, hall, hcopy, List.take_append_drop]
      · rw [hdrsOf_cons_none hhdr, hhdrs]

theorem mDevget_right {copy : Option (List Byte → List Byte)} (hcopy : ∀ f ∈ copy, ∀ l, f l = l) (hoff : 0 ≤ off)
    (hle : off ≤ mHLEN) (ifp : φ) (buf : List Byte) : DevgetRight copy ifp buf off := by
  have hcopy' : ∀ l, copy.getD id l = l := by
    cases copy with
    | none => exact fun _ => rfl
    | some f => exact hcopy f rfl
  have hguard : ¬ (off < 0 ∨ mHLEN < off) := by omega
  rw [DevgetRight, mDevget, if_neg hguard, if_neg (not_not.mpr rfl), devgetLoop]
  by_cases hnil : buf = []
  · rw [if_pos hnil, if_pos hnil, hnil]
    exact ⟨[], rfl, rfl, List.forall_mem_nil _, rfl⟩
  rw [if_neg hnil, if_neg hnil, if_neg (fun h => h.1 rfl)]
  have hpos : (0 : ℤ) < buf.length := by exact_mod_cast List.length_pos_iff.mpr hnil
  simp only [ne_eq, not_true_eq_false, if_false, and_false, decide_true]
  have hplaced := placed_first hpos hoff hle (⟨buf.length, some ifp⟩ : Pkthdr φ)
  generalize devgetPlace true _ mHLEN buf.length off = m at hplaced ⊢
  obtain ⟨hin, hbytes, hhdr⟩ := hplaced.write (length_take_of_placed hplaced hcopy')
  have hshort : (buf.drop m.mLen.toNat).length < buf.length + 1 := by
    rw [List.length_drop]
    omega
  have htop : ([] : List (Mbuf φ)) ++ [m.write m.mData (copy.getD id (buf.take m.mLen.toNat))] ≠ [] :=
    List.cons_ne_nil _ _
  obtain ⟨rest, hrest, hall, hins, hhdrs⟩ := devgetLoop_rest hcopy' hshort htop
    (if mINCLSIZE ≤ buf.length + off then 1 + 1 else 1) (m.write m.mData (copy.getD id (buf.take m.mLen.toNat)))
    (m.write m.mData (copy.getD id (buf.take m.mLen.toNat))).mLen
  refine ⟨_, hrest, ?_, Inside.cons hin hins, ?_⟩
  · rw [List.nil_append, List.singleton_append, bytesOf_cons, hbytes, hall, hcopy', List.take_append_drop]
  · rw [List.nil_append, List.singleton_append, hdrsOf_cons_some hhdr, hhdrs]

/-! ## `m_cat` on the bytes -/

/-- What the chains of packets that wait have of an mbuf. -/
def Mbuf.toMbuf (m : Mbuf φ) : Net.Mbuf :=
  { mType := m.mType, mExt := decide (m.Is mEXT), mEor := decide (m.Is mEOR), mPkthdr := m.hdr.map Pkthdr.len
    mData := m.mData.toNat, bytes := m.bytes }

theorem mCatLoop_toMbuf (hm : m.InStorage) (hc : Inside c) :
    (mCatLoop m c).1.map Mbuf.toMbuf = mCatLast m.toMbuf (c.map Mbuf.toMbuf) := by
  induction c generalizing m with
  | nil => rfl
  | cons n next ih =>
      obtain ⟨hn, hnext⟩ := inside_cons.mp hc
      have hbase : 0 ≤ m.base := by
        rw [Mbuf.base]
        split_ifs
        · decide
        · rfl
      have hdata := hbase.trans hm.low
      have hlen := hm.len
      have hlen' := hn.len
      have hroom : (m.Is mEXT ∨ mLEN ≤ m.mData + m.mLen + n.mLen) ↔
          (m.toMbuf.mExt = true ∨ mLEN ≤ m.toMbuf.mData + m.toMbuf.mLen + n.toMbuf.mLen) := by
        change _ ↔ (decide (m.Is mEXT) = true ∨ mLEN ≤ m.mData.toNat + m.bytes.length + n.bytes.length)
        rw [decide_eq_true_eq, length_bytes, length_bytes]
        refine or_congr_right ?_
        omega
      rw [mCatLoop, List.map_cons, mCatLast]
      by_cases hfull : m.Is mEXT ∨ mLEN ≤ m.mData + m.mLen + n.mLen
      · rw [if_pos hfull, if_pos (hroom.mp hfull)]
        rfl
      · rw [if_neg hfull, if_neg (mt hroom.mpr hfull)]
        refine (ih (inStorage_splat hm hn hfull) hnext).trans ?_
        rw [Mbuf.toMbuf, bytes_splat hm hn]
        rfl

/-- The bytes of a chain are all that `m_cat` looks at. -/
theorem mCat_toMbuf (hm : Inside (m :: next)) (hc : Inside c) :
    (mCat m next c).1.map Mbuf.toMbuf = Net.mCat ((m :: next).map Mbuf.toMbuf) (c.map Mbuf.toMbuf) := by
  induction next generalizing m with
  | nil => exact mCatLoop_toMbuf (inside_cons.mp hm).1 hc
  | cons m' next ih => exact congrArg (m.toMbuf :: ·) (ih (inside_cons.mp hm).2)

/-! ## All of them -/

/-- What the three functions make of chains and buffers. -/
structure ContentRight (m : Mbuf φ) (next n : List (Mbuf φ)) (len off : ℤ) (copy : Option (List Byte → List Byte))
    (ifp : φ) (buf : List Byte) : Prop where
  cat : CatRight m next n
  prepend : PrependRight m next len
  devget : DevgetRight copy ifp buf off

theorem mbuf_contentRight {copy : Option (List Byte → List Byte)} (hm : Inside (m :: next)) (hc : Inside c)
    (hlen : 0 ≤ len) (hroom : len ≤ mLeadingspace m ∨ len ≤ mHLEN) (hcopy : ∀ f ∈ copy, ∀ l, f l = l) (hoff : 0 ≤ off)
    (hle : off ≤ mHLEN) (ifp : φ) (buf : List Byte) : ContentRight m next c len off copy ifp buf :=
  ⟨mCat_right hm hc, mPrepend_right hm hlen hroom, mDevget_right hcopy hoff hle ifp buf⟩

theorem inStorage_mGet (t : ℤ) : (mGet t : Mbuf φ).InStorage :=
  inStorage_of_not_ext (not_is_mGet _ _) (base_mGet t).le le_rfl (show (0 + 0 : ℤ) ≤ 108 by decide)

theorem mbuf_contentRight_some :
    ContentRight (mGet mtDATA : Mbuf Unit) [] [mGet mtDATA] 14 2 none () (List.replicate 300 7) :=
  mbuf_contentRight (Inside.cons (inStorage_mGet _) (List.forall_mem_nil _))
    (Inside.cons (inStorage_mGet _) (List.forall_mem_nil _)) (by decide) (.inr (by decide)) (fun _ h => by cases h)
    (by decide) (by decide) () _

/-- 101 new bytes do not fit into an mbuf, and neither does data that starts 101 bytes behind its front. -/
theorem mbuf_content_wrong :
    ¬ PrependRight (mGet mtDATA : Mbuf Unit) [] 101 ∧ ¬ DevgetRight none () [7] 101 := by
  refine ⟨?_, ?_⟩
  · rintro ⟨m', next', new, hprep, -, -, hin, -⟩
    have hlow := (inside_cons.mp hin).1.low
    rw [← (List.cons.inj (Option.some.inj hprep)).1] at hlow
    exact absurd hlow (by decide)
  · rintro ⟨top, htop, hbytes, -⟩
    rw [← Option.some.inj htop] at hbytes
    cases hbytes

end

end Shaunos.Net.Raw
