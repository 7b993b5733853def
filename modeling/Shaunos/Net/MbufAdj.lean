import Mathlib
import Shaunos.Net.Mbuf

/-!
# `m_adj` on lengths

Reference: `Kernel/mbuf.c` (`m_adj`).

`m_adj` changes lengths, which are of type `int`, and places, and leaves the bytes where they are. Here the bytes of
an mbuf are the memory from its place on, as far as its length says.

* `adjHead_spec`, `adjCount_spec` — what the loops do;
* `adj_right` — what `m_adj` leaves.
-/

namespace Shaunos.Net

/-! ## The code -/

/-- A number becomes an `int`. -/
def int (x : ℤ) : ℤ := (BitVec.ofInt 32 x).toInt

/-- What `m_adj` looks at in an mbuf. -/
structure AdjMbuf where
  mLen : ℤ
  mData : BitVec 32
  /-- `m_pkthdr.len`, with `m_flags & M_PKTHDR`. -/
  mPkthdr : Option (BitVec 32)

/-- The head loop: the chain, and what is left of the length. -/
def adjHead : (len : ℤ) → List AdjMbuf → List AdjMbuf × ℤ
  | len, [] => ([], len)
  | len, m :: rest =>
      if 0 < len then
        if m.mLen ≤ len then
          let (rest, len) := adjHead (int (len - m.mLen)) rest
          ({ m with mLen := 0 } :: rest, len)
        else ({ m with mLen := int (m.mLen - len), mData := m.mData + BitVec.ofInt 32 len } :: rest, 0)
      else (m :: rest, len)

/-- The loops that keep the first `count` bytes, or use a null pointer. -/
def adjCount : (count : ℤ) → List AdjMbuf → Option (List AdjMbuf)
  | _, [] => none
  | count, m :: rest =>
      if count ≤ m.mLen then some ({ m with mLen := count } :: rest.map fun m => { m with mLen := 0 })
      else (adjCount (int (count - m.mLen)) rest).map (m :: ·)

/-- Change `m_pkthdr.len` of the first mbuf. -/
def adjPkthdr (f : BitVec 32 → BitVec 32) : List AdjMbuf → List AdjMbuf
  | [] => []
  | m :: rest => { m with mPkthdr := m.mPkthdr.map f } :: rest

/-- `m_adj`. -/
def adj (mp : List AdjMbuf) (reqLen : ℤ) : Option (List AdjMbuf) :=
  match mp.getLast? with
  | none => some []
  | some last =>
      if 0 ≤ reqLen then
        let (m, len) := adjHead reqLen mp
        some (adjPkthdr (fun l => l - BitVec.ofInt 32 (reqLen - len)) m)
      else
        let len := int (-reqLen)
        let count := mp.foldl (fun count m => int (count + m.mLen)) 0
        if len ≤ last.mLen then
          some (adjPkthdr (fun l => l - BitVec.ofInt 32 len)
            (mp.dropLast ++ [{ last with mLen := int (last.mLen - len) }]))
        else
          let count := max (int (count - len)) 0
          adjCount count (adjPkthdr (fun _ => BitVec.ofInt 32 count) mp)

/-! ## What should happen -/

/-- The memory from a place on. -/
def bytesAt (mem : BitVec 32 → Byte) (a : BitVec 32) (n : ℕ) : List Byte :=
  (List.range n).map fun i => mem (a + BitVec.ofNat 32 i)

def AdjMbuf.bytes (mem : BitVec 32 → Byte) (m : AdjMbuf) : List Byte := bytesAt mem m.mData m.mLen.toNat

/-- The bytes of a chain. -/
def adjBytes (mem : BitVec 32 → Byte) (m : List AdjMbuf) : List Byte := m.flatMap (AdjMbuf.bytes mem)

/-- No length is negative. -/
def Nonneg (m : List AdjMbuf) : Prop := ∀ x ∈ m, 0 ≤ x.mLen

instance (m : List AdjMbuf) : Decidable (Nonneg m) := inferInstanceAs (Decidable (∀ x ∈ m, 0 ≤ x.mLen))

/-- The header of a chain. -/
def adjHdr (m : List AdjMbuf) : Option (BitVec 32) := m.head?.bind AdjMbuf.mPkthdr

/-- The end is cut off from more than the last mbuf. -/
def CutsMore (m : List AdjMbuf) (reqLen : ℤ) : Prop := ∀ last ∈ m.getLast?, last.mLen < -reqLen

instance (m : List AdjMbuf) (reqLen : ℤ) : Decidable (CutsMore m reqLen) :=
  inferInstanceAs (Decidable (∀ last ∈ m.getLast?, last.mLen < -reqLen))

/-- The bytes asked for are gone, no length is negative, and the length in the header is reduced by what is gone; if
more than the last mbuf is cut it is the number of bytes instead. -/
structure AdjRight (mem : BitVec 32 → Byte) (m : List AdjMbuf) (reqLen : ℤ) (m' : List AdjMbuf) : Prop where
  bytes : adjBytes mem m' = adjust (adjBytes mem m) reqLen
  nonneg : Nonneg m'
  hdr : adjHdr m' = (adjHdr m).map fun l =>
    if reqLen < 0 ∧ CutsMore m reqLen then BitVec.ofNat 32 (adjBytes mem m').length
    else l - BitVec.ofNat 32 ((adjBytes mem m).length - (adjBytes mem m').length)

section

variable {mem : BitVec 32 → Byte} {m : AdjMbuf} {rest c : List AdjMbuf} {len count : ℤ} {a : BitVec 32} {n k : ℕ}

theorem int_eq {x : ℤ} (hle : -2 ^ 31 ≤ x) (hlt : x < 2 ^ 31) : int x = x := by
  have heq : int x = x.bmod (2 ^ 32) := BitVec.toInt_ofInt x
  have hdef := Int.bmod_def x (2 ^ 32)
  omega

/-! ## The bytes -/

@[simp] theorem length_bytesAt : (bytesAt mem a n).length = n := by
  rw [bytesAt, List.length_map, List.length_range]

theorem take_bytesAt (h : k ≤ n) : (bytesAt mem a n).take k = bytesAt mem a k := by
  rw [bytesAt, ← List.map_take, List.take_range, Nat.min_eq_left h]
  rfl

theorem drop_bytesAt (mem : BitVec 32 → Byte) (a : BitVec 32) (n k : ℕ) :
    (bytesAt mem a n).drop k = bytesAt mem (a + BitVec.ofNat 32 k) (n - k) := by
  refine List.ext_getElem ?_ fun i hi _ => ?_
  · rw [List.length_drop, length_bytesAt, length_bytesAt]
  · simp only [bytesAt, List.getElem_drop, List.getElem_map, List.getElem_range]
    rw [add_assoc, ← BitVec.ofNat_add]

@[simp] theorem adjBytes_nil : adjBytes mem [] = [] := rfl

@[simp] theorem adjBytes_cons : adjBytes mem (m :: rest) = m.bytes mem ++ adjBytes mem rest := List.flatMap_cons

@[simp] theorem adjBytes_append (c d : List AdjMbuf) : adjBytes mem (c ++ d) = adjBytes mem c ++ adjBytes mem d :=
  List.flatMap_append

theorem AdjMbuf.length_bytes : (m.bytes mem).length = m.mLen.toNat := length_bytesAt

/-- A chain without lengths has no bytes. -/
theorem adjBytes_cleared (c : List AdjMbuf) : adjBytes mem (c.map fun m => { m with mLen := 0 }) = [] := by
  rw [adjBytes, List.flatMap_eq_nil_iff]
  intro x hx
  obtain ⟨y, _, rfl⟩ := List.mem_map.mp hx
  rfl

theorem Nonneg.head (h : Nonneg (m :: rest)) : 0 ≤ m.mLen := h m List.mem_cons_self

theorem Nonneg.tail (h : Nonneg (m :: rest)) : Nonneg rest := fun x hx => h x (List.mem_cons_of_mem m hx)

theorem Nonneg.cons (hm : 0 ≤ m.mLen) (h : Nonneg rest) : Nonneg (m :: rest) := List.forall_mem_cons.mpr ⟨hm, h⟩

theorem nonneg_cleared (c : List AdjMbuf) : Nonneg (c.map fun m => { m with mLen := 0 }) := by
  intro x hx
  obtain ⟨y, _, rfl⟩ := List.mem_map.mp hx
  exact le_rfl

theorem length_adjBytes_cons (h : Nonneg (m :: rest)) :
    ((adjBytes mem (m :: rest)).length : ℤ) = m.mLen + (adjBytes mem rest).length := by
  have := h.head
  rw [adjBytes_cons, List.length_append, AdjMbuf.length_bytes]
  omega

@[simp] theorem adjBytes_adjPkthdr (f : BitVec 32 → BitVec 32) (c : List AdjMbuf) :
    adjBytes mem (adjPkthdr f c) = adjBytes mem c := by
  cases c <;> rfl

theorem Nonneg.adjPkthdr (h : Nonneg c) (f : BitVec 32 → BitVec 32) : Nonneg (adjPkthdr f c) := by
  cases c with
  | nil => exact h
  | cons m rest => exact h.tail.cons h.head

@[simp] theorem adjHdr_adjPkthdr (f : BitVec 32 → BitVec 32) (c : List AdjMbuf) :
    adjHdr (adjPkthdr f c) = (adjHdr c).map f := by
  cases c <;> rfl

/-! ## The loops -/

/-- The head loop cuts the front off, and what it could not cut is left. -/
theorem adjHead_spec (h : Nonneg c) (hlen : 0 ≤ len) (hlt : len < 2 ^ 31) (hc : (adjBytes mem c).length < 2 ^ 31) :
    adjBytes mem (adjHead len c).1 = (adjBytes mem c).drop len.toNat ∧ Nonneg (adjHead len c).1 ∧
      adjHdr (adjHead len c).1 = adjHdr c ∧ (adjHead len c).2 = max (len - (adjBytes mem c).length) 0 := by
  induction c generalizing len with
  | nil =>
      refine ⟨by rw [adjHead, adjBytes_nil, List.drop_nil], h, rfl, ?_⟩
      rw [adjHead, adjBytes_nil, List.length_nil]
      omega
  | cons m rest ih =>
      have hm := h.head
      have hall : ((adjBytes mem (m :: rest)).length : ℤ) = _ := length_adjBytes_cons h
      rw [adjHead]
      split
      · split
        · rename_i hle
          rw [int_eq (by omega) (by omega)]
          obtain ⟨hbytes, hnonneg, _, hleft⟩ := ih h.tail (show 0 ≤ len - m.mLen by omega) (by omega) (by omega)
          refine ⟨?_, hnonneg.cons le_rfl, rfl, ?_⟩
          · have hm' : (m.bytes mem).length ≤ len.toNat := by
              rw [AdjMbuf.length_bytes]
              omega
            rw [adjBytes_cons, hbytes, adjBytes_cons, List.drop_append, List.drop_of_length_le hm',
              AdjMbuf.length_bytes]
            congr 1
            congr 1
            omega
          · rw [hleft, hall]
            omega
        · rename_i hgt
          have hlen' : len.toNat ≤ m.mLen.toNat := by omega
          refine ⟨?_, h.tail.cons ?_, rfl, ?_⟩
          · rw [adjBytes_cons, adjBytes_cons, List.drop_append_of_le_length (by rwa [AdjMbuf.length_bytes])]
            congr 1
            rw [AdjMbuf.bytes, AdjMbuf.bytes, drop_bytesAt]
            dsimp only
            rw [int_eq (by omega) (by omega), ← BitVec.ofInt_natCast, Int.toNat_of_nonneg hlen]
            congr 1
            omega
          · dsimp only
            rw [int_eq (by omega) (by omega)]
            omega
          · dsimp only
            omega
      · rename_i hzero
        obtain rfl : len = 0 := by omega
        refine ⟨rfl, h, rfl, ?_⟩
        dsimp only
        omega

/-- The other loops keep as many bytes as they are told. -/
theorem adjCount_spec (h : Nonneg c) (hne : c ≠ []) (hcount : 0 ≤ count) (hle : count ≤ (adjBytes mem c).length)
    (hlt : count < 2 ^ 31) : ∃ c', adjCount count c = some c' ∧
      adjBytes mem c' = (adjBytes mem c).take count.toNat ∧ Nonneg c' ∧ adjHdr c' = adjHdr c := by
  induction c generalizing count with
  | nil => exact absurd rfl hne
  | cons m rest ih =>
      have hm := h.head
      have hall : ((adjBytes mem (m :: rest)).length : ℤ) = _ := length_adjBytes_cons h
      rw [adjCount]
      split
      · rename_i hfits
        refine ⟨_, rfl, ?_, (nonneg_cleared rest).cons hcount, rfl⟩
        have hlen : count.toNat ≤ m.mLen.toNat := by omega
        rw [adjBytes_cons, adjBytes_cleared, List.append_nil, adjBytes_cons,
          List.take_append_of_le_length (by rwa [AdjMbuf.length_bytes]), AdjMbuf.bytes, AdjMbuf.bytes,
          take_bytesAt hlen]
      · rename_i hmore
        have hrest : rest ≠ [] := by
          rintro rfl
          rw [adjBytes_nil, List.length_nil] at hall
          omega
        rw [int_eq (by omega) (by omega)]
        obtain ⟨c', hc', hbytes, hnonneg, _⟩ :=
          ih h.tail hrest (show 0 ≤ count - m.mLen by omega) (by omega) (by omega)
        refine ⟨m :: c', by rw [hc']; rfl, ?_, hnonneg.cons hm, rfl⟩
        have hm' : (m.bytes mem).length ≤ count.toNat := by
          rw [AdjMbuf.length_bytes]
          omega
        rw [adjBytes_cons, hbytes, adjBytes_cons, List.take_append, List.take_of_length_le hm', AdjMbuf.length_bytes]
        congr 2
        omega

/-- The lengths are added up. -/
theorem count_eq (mem : BitVec 32 → Byte) (h : Nonneg c) {k : ℤ} (hk : 0 ≤ k) (hlt : k + (adjBytes mem c).length < 2 ^ 31) :
    c.foldl (fun count m => int (count + m.mLen)) k = k + (adjBytes mem c).length := by
  induction c generalizing k with
  | nil => simp
  | cons m rest ih =>
      have hm := h.head
      have hall : ((adjBytes mem (m :: rest)).length : ℤ) = _ := length_adjBytes_cons h
      rw [List.foldl_cons, int_eq (by omega) (by omega), ih h.tail (by omega) (by omega), hall, add_assoc]

/-- The front is cut off. -/
theorem adj_front (h : Nonneg c) (hc : (adjBytes mem c).length < 2 ^ 31) (hle : 0 ≤ len) (hlt : len < 2 ^ 31) :
    ∃ c', adj c len = some c' ∧ AdjRight mem c len c' := by
  cases hlast : c.getLast? with
  | none =>
      rw [List.getLast?_eq_none_iff] at hlast
      subst hlast
      refine ⟨[], rfl, ?_, h, rfl⟩
      rw [adjBytes_nil, adjust, if_pos hle, List.drop_nil]
  | some last =>
      obtain ⟨hbytes, hnonneg, hhdr, hleft⟩ := adjHead_spec h hle hlt hc
      refine ⟨_, by rw [adj, hlast]; exact if_pos hle, ?_, hnonneg.adjPkthdr _, ?_⟩
      · rw [adjBytes_adjPkthdr, hbytes, adjust, if_pos hle]
      · have hgone : len - (adjHead len c).2 =
            (((adjBytes mem c).length - (adjBytes mem (adjHead len c).1).length : ℕ) : ℤ) := by
          rw [hleft, hbytes, List.length_drop]
          omega
        rw [adjHdr_adjPkthdr, hhdr, adjBytes_adjPkthdr, hgone, BitVec.ofInt_natCast]
        refine Option.map_congr fun l _ => ?_
        rw [if_neg fun hneg => absurd hneg.1 (not_lt.mpr hle)]

/-- The end is cut off from the last mbuf. -/
theorem adj_last {last : AdjMbuf} (h : Nonneg (c ++ [last])) (hc : (adjBytes mem (c ++ [last])).length < 2 ^ 31)
    (hlt : len < 0) (hle : -len ≤ last.mLen) :
    ∃ c', adj (c ++ [last]) len = some c' ∧ AdjRight mem (c ++ [last]) len c' := by
  have hl : 0 ≤ last.mLen := h last (by simp)
  have hlen : (last.bytes mem).length = last.mLen.toNat := AdjMbuf.length_bytes
  have hall : (adjBytes mem (c ++ [last])).length = (adjBytes mem c).length + last.mLen.toNat := by
    rw [adjBytes_append, adjBytes_cons, adjBytes_nil, List.append_nil, List.length_append, hlen]
  rw [hall] at hc
  have hbytes : adjBytes mem (c ++ [{ last with mLen := last.mLen - -len }]) =
      (adjBytes mem (c ++ [last])).take ((adjBytes mem (c ++ [last])).length - (-len).toNat) := by
    rw [hall, adjBytes_append, adjBytes_append, adjBytes_cons, adjBytes_cons, adjBytes_nil, List.append_nil,
      List.append_nil, List.take_append, List.take_of_length_le (by omega), AdjMbuf.bytes, AdjMbuf.bytes,
      take_bytesAt (by omega)]
    congr 2
    dsimp only
    omega
  have hnonneg : Nonneg (c ++ [{ last with mLen := last.mLen - -len }]) := by
    rw [Nonneg, List.forall_mem_append, List.forall_mem_singleton] at h ⊢
    exact ⟨h.1, by dsimp only; omega⟩
  refine ⟨adjPkthdr (fun l => l - BitVec.ofInt 32 (-len)) (c ++ [{ last with mLen := last.mLen - -len }]), ?_, ?_,
    hnonneg.adjPkthdr _, ?_⟩
  · rw [adj, List.getLast?_append, List.getLast?_singleton]
    dsimp only [Option.some_or]
    rw [if_neg (not_le.mpr hlt), int_eq (by omega) (by omega), if_pos hle, List.dropLast_concat,
      int_eq (by omega) (by omega)]
  · rw [adjBytes_adjPkthdr, hbytes, adjust, if_neg (not_le.mpr hlt)]
  · have hhdr : adjHdr (c ++ [{ last with mLen := last.mLen - -len }]) = adjHdr (c ++ [last]) := by
      cases c <;> rfl
    have hgone : ((adjBytes mem (c ++ [last])).length -
        (adjBytes mem (c ++ [{ last with mLen := last.mLen - -len }])).length : ℕ) = (-len).toNat := by
      rw [hbytes, List.length_take, hall]
      omega
    have hone : ¬ CutsMore (c ++ [last]) len := by
      intro hcuts
      have := hcuts last (by simp)
      omega
    have hint : BitVec.ofNat 32 (-len).toNat = BitVec.ofInt 32 (-len) := by
      rw [← BitVec.ofInt_natCast, Int.toNat_of_nonneg (by omega)]
    rw [adjHdr_adjPkthdr, hhdr, adjBytes_adjPkthdr, hgone, hint]
    refine Option.map_congr fun l _ => ?_
    rw [if_neg fun hneg => hone hneg.2]

/-- The end is cut off from more than the last mbuf. -/
theorem adj_more {last : AdjMbuf} (h : Nonneg (c ++ [last])) (hc : (adjBytes mem (c ++ [last])).length < 2 ^ 31)
    (hlow : -2 ^ 31 < len) (hgt : last.mLen < -len) :
    ∃ c', adj (c ++ [last]) len = some c' ∧ AdjRight mem (c ++ [last]) len c' := by
  have hl : 0 ≤ last.mLen := h last (by simp)
  have hmore : CutsMore (c ++ [last]) len := by
    intro x hx
    rw [List.getLast?_append, List.getLast?_singleton, Option.some_or, Option.mem_some_iff] at hx
    rwa [← hx]
  have hcount : (c ++ [last]).foldl (fun count m => int (count + m.mLen)) 0 = (adjBytes mem (c ++ [last])).length := by
    rw [count_eq mem h le_rfl (by omega), zero_add]
  set count : ℤ := max ((adjBytes mem (c ++ [last])).length - -len) 0 with hdef
  have hle : count ≤ (adjBytes mem (adjPkthdr (fun _ => BitVec.ofInt 32 count) (c ++ [last]))).length := by
    rw [adjBytes_adjPkthdr]
    omega
  obtain ⟨c', hc', hbytes, hnonneg, hhdr⟩ := adjCount_spec (h.adjPkthdr fun _ => BitVec.ofInt 32 count)
    (by cases c <;> simp [adjPkthdr]) (le_max_right _ _) hle (by omega)
  rw [adjBytes_adjPkthdr] at hbytes
  have hkept : ((adjBytes mem c').length : ℤ) = count := by
    rw [hbytes, List.length_take]
    omega
  refine ⟨c', ?_, ?_, hnonneg, ?_⟩
  · rw [adj, List.getLast?_append, List.getLast?_singleton]
    dsimp only [Option.some_or]
    rw [if_neg (by omega), int_eq (by omega) (by omega), if_neg (not_le.mpr hgt), hcount, int_eq (by omega) (by omega)]
    exact hc'
  · rw [hbytes, adjust, if_neg (by omega)]
    congr 1
    omega
  · rw [hhdr, adjHdr_adjPkthdr]
    refine Option.map_congr fun l _ => ?_
    rw [if_pos ⟨by omega, hmore⟩, ← BitVec.ofInt_natCast, hkept]

end

/-! ## Main results -/

/-- **`m_adj` is right** for every chain and every `int` that has a negation. -/
theorem adj_right (mem : BitVec 32 → Byte) (m : List AdjMbuf) (reqLen : ℤ) (h : Nonneg m)
    (hm : (adjBytes mem m).length < 2 ^ 31) (hlow : -2 ^ 31 < reqLen) (hreq : reqLen < 2 ^ 31) :
    ∃ m', adj m reqLen = some m' ∧ AdjRight mem m reqLen m' := by
  rcases le_or_gt 0 reqLen with hle | hlt
  · exact adj_front h hm hle hreq
  rcases List.eq_nil_or_concat m with rfl | ⟨front, last, rfl⟩
  · refine ⟨[], rfl, ?_, h, rfl⟩
    rw [adjBytes_nil, adjust, if_neg (not_le.mpr hlt), List.take_nil]
  rw [List.concat_eq_append] at h hm ⊢
  rcases le_or_gt (-reqLen) last.mLen with hle | hgt
  · exact adj_last h hm hlt hle
  · exact adj_more h hm hlow hgt

/-- A segment of five bytes behind headers that were skipped. -/
def adjChain : List AdjMbuf := [⟨3, 100, some 45⟩, ⟨0, 200, none⟩, ⟨2, 300, none⟩]

/-- Four bytes are cut off at the end. -/
theorem adj_right_four : ∃ m', adj adjChain (-4) = some m' ∧ AdjRight (fun _ => 0) adjChain (-4) m' :=
  adj_right (fun _ => 0) adjChain (-4) (by decide) (by decide) (by decide) (by decide)

/-- Four bytes are removed, and 44 are subtracted from the length in the header. -/
theorem adj_can_set_hdr : ¬ ∀ (mem : BitVec 32 → Byte) (m : List AdjMbuf) (reqLen : ℤ), Nonneg m →
    (adjBytes mem m).length < 2 ^ 31 → -2 ^ 31 < reqLen → reqLen < 2 ^ 31 → ∃ m', adj m reqLen = some m' ∧
      adjHdr m' = (adjHdr m).map fun l =>
        l - BitVec.ofNat 32 ((adjBytes mem m).length - (adjBytes mem m').length) := by
  intro hall
  obtain ⟨m', hm', hhdr⟩ := hall (fun _ => 0) adjChain (-4) (by decide) (by decide) (by decide) (by decide)
  have hset : (adj adjChain (-4)).map (fun m' => (adjHdr m', (adjBytes (fun _ => 0) m').length)) = some (some 1, 1) := by
    decide +kernel
  rw [hm', Option.map_some, Option.some_inj, Prod.mk.injEq] at hset
  rw [hset.1, hset.2] at hhdr
  exact absurd hhdr (by decide +kernel)

end Shaunos.Net
