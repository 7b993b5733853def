import Mathlib
import Shaunos.Net.Mbuf

/-!
# What `m_copydata` copies

Reference: `Kernel/mbuf.c` (`m_copydata`).

If the mbuf with the offset has its bytes in a cluster, `memcpy` starts at its `m_data`, and not at the offset, and
nothing is copied from the mbufs behind it.

* `mCopydataLoop_eq` — what the loop copies;
* `copydataRight_iff` — when the bytes asked for are copied.
-/

namespace Shaunos.Net

/-! ## The code -/

/-- An mbuf with the memory behind its bytes. -/
structure MemMbuf extends Mbuf where
  beyond : ℕ → Byte

/-- The memory from `m_data` on. -/
def MemMbuf.mem (m : MemMbuf) (i : ℕ) : Byte := m.bytes.getD i (m.beyond (i - m.mLen))

/-- `memcpy` of some bytes from `m_data + off` on. -/
def MemMbuf.copy (m : MemMbuf) (off count : ℕ) : List Byte := (List.range count).map fun i => m.mem (off + i)

/-- The loop of `m_copydata` that looks for the offset: the mbuf with it and those behind, and the offset there. -/
def mCopydataSkip : (off : ℕ) → List MemMbuf → List MemMbuf × ℕ
  | off, [] => ([], off)
  | off, m :: rest =>
      if off = 0 then (m :: rest, 0)
      else if off < m.mLen then (m :: rest, off)
      else mCopydataSkip (off - m.mLen) rest

/-- The loop of `m_copydata` that copies. -/
def mCopydataLoop : (off len : ℕ) → List MemMbuf → Option (List Byte)
  | _, len, [] => if len = 0 then some [] else none
  | off, len, m :: rest =>
      if len = 0 then some []
      else
        let count := min (m.mLen - off) len
        (mCopydataLoop 0 (len - count) rest).map (m.copy off count ++ ·)

/-- `m_copydata`: what is copied to `cp`, or a use of a null pointer. -/
def mCopydata (m : List MemMbuf) (off len : ℕ) : Option (List Byte) :=
  match mCopydataSkip off m with
  | ([], _) => none
  | (m :: rest, off) =>
      if m.mExt then some (m.copy 0 (min len mCLBYTES)) else mCopydataLoop off len (m :: rest)

/-- The bytes of a chain. -/
def memBytes (m : List MemMbuf) : List Byte := chainBytes (m.map MemMbuf.toMbuf)

/-! ## What should happen -/

/-- `m_copydata` copies the bytes asked for. -/
def CopydataRight (m : List MemMbuf) (off len : ℕ) : Prop :=
  mCopydata m off len = some (((memBytes m).drop off).take len)

/-- There is an mbuf at the offset. If it has a cluster, one cluster is enough for the length, and the memory from
`m_data` on holds the bytes that are asked for. -/
def CopydataOk (m : List MemMbuf) (off len : ℕ) : Prop :=
  match mCopydataSkip off m with
  | ([], _) => False
  | (n :: rest, o) => n.mExt = true → len ≤ mCLBYTES ∧
      ∀ i < len, some (n.mem i) = (memBytes (n :: rest))[o + i]?

instance (m : List MemMbuf) (off len : ℕ) : Decidable (CopydataOk m off len) := by
  unfold CopydataOk
  split
  · exact isFalse id
  · exact inferInstanceAs (Decidable (_ → _ ∧ _))

section

variable {m : MemMbuf} {rest c : List MemMbuf} {off len : ℕ}

@[simp] theorem memBytes_nil : memBytes [] = [] := rfl

@[simp] theorem memBytes_cons : memBytes (m :: rest) = m.bytes ++ memBytes rest := by
  rw [memBytes, List.map_cons, chainBytes_cons]
  rfl

/-! ## The loops -/

theorem MemMbuf.length_copy (m : MemMbuf) (off count : ℕ) : (m.copy off count).length = count := by
  rw [copy, List.length_map, List.length_range]

/-- Within its length, the memory of an mbuf holds its bytes. -/
theorem MemMbuf.copy_eq (m : MemMbuf) (h : off + len ≤ m.mLen) : m.copy off len = (m.bytes.drop off).take len := by
  have hlen : off + len ≤ m.bytes.length := h
  refine List.ext_getElem ?_ fun i hi _ => ?_
  · rw [length_copy, List.length_take, List.length_drop]
    omega
  · rw [length_copy] at hi
    simp only [copy, List.getElem_map, List.getElem_range, List.getElem_take, List.getElem_drop]
    rw [mem, List.getD_eq_getElem _ _ (by omega)]

/-- Where the search for the offset ends. -/
theorem mCopydataSkip_spec (h : off ≤ (memBytes c).length) :
    ∃ front, c = front ++ (mCopydataSkip off c).1 ∧ off = (memBytes front).length + (mCopydataSkip off c).2 ∧
      ∀ n ∈ (mCopydataSkip off c).1.head?, (mCopydataSkip off c).2 ≤ n.mLen := by
  induction c generalizing off with
  | nil =>
      have hzero : off = 0 := Nat.le_zero.mp h
      exact ⟨[], rfl, by rw [hzero]; rfl, by simp [mCopydataSkip]⟩
  | cons m rest ih =>
      rw [mCopydataSkip]
      split
      · rename_i hzero
        exact ⟨[], rfl, hzero, fun n _ => Nat.zero_le _⟩
      split
      · rename_i hlt
        refine ⟨[], rfl, (Nat.zero_add off).symm, fun n hn => ?_⟩
        obtain rfl := Option.some.inj hn
        exact hlt.le
      · rename_i hge
        have hm : m.bytes.length ≤ off := not_lt.mp hge
        rw [memBytes_cons, List.length_append] at h
        obtain ⟨front, hc, hoff, hle⟩ := ih (show off - m.mLen ≤ (memBytes rest).length by
          rw [Mbuf.mLen]
          omega)
        refine ⟨m :: front, ?_, ?_, hle⟩
        · rw [List.cons_append, ← hc]
        · rw [memBytes_cons, List.length_append, add_assoc, ← hoff, Mbuf.mLen]
          omega

/-- The loop copies what is asked for. -/
theorem mCopydataLoop_eq (hoff : ∀ m ∈ c.head?, off ≤ m.mLen) (h : off + len ≤ (memBytes c).length) :
    mCopydataLoop off len c = some (((memBytes c).drop off).take len) := by
  induction c generalizing off len with
  | nil =>
      have hlen : len = 0 := by
        rw [memBytes_nil, List.length_nil] at h
        omega
      rw [mCopydataLoop, if_pos hlen, hlen, List.take_zero]
  | cons m rest ih =>
      have hle : off ≤ m.bytes.length := hoff m rfl
      rw [mCopydataLoop]
      split
      · rename_i hzero
        rw [hzero, List.take_zero]
      · rw [memBytes_cons, List.length_append] at h
        have hcount : off + min (m.mLen - off) len ≤ m.mLen := by
          rw [Mbuf.mLen]
          omega
        have hrest : mCopydataLoop 0 (len - min (m.mLen - off) len) rest =
            some ((memBytes rest).take (len - min (m.mLen - off) len)) := by
          refine (ih (fun _ _ => Nat.zero_le _) ?_).trans (by rw [List.drop_zero])
          rw [Mbuf.mLen]
          omega
        dsimp only
        rw [hrest, Option.map_some, m.copy_eq hcount, memBytes_cons, List.drop_append_of_le_length hle,
          List.take_append, List.length_drop, ← Mbuf.mLen]
        congr 2
        · refine List.take_eq_take_iff.mpr ?_
          rw [List.length_drop, ← Mbuf.mLen]
          omega
        · congr 1
          omega

/-- What is copied from a cluster. -/
theorem cluster_iff (n : MemMbuf) (rest : List MemMbuf) {o : ℕ} (h : o + len ≤ (memBytes (n :: rest)).length) :
    n.copy 0 (min len mCLBYTES) = ((memBytes (n :: rest)).drop o).take len ↔
      len ≤ mCLBYTES ∧ ∀ i < len, some (n.mem i) = (memBytes (n :: rest))[o + i]? := by
  have hlen : (((memBytes (n :: rest)).drop o).take len).length = len := by
    rw [List.length_take, List.length_drop]
    omega
  constructor
  · intro heq
    have hle : len ≤ mCLBYTES := by
      have hcopy := congrArg List.length heq
      rw [n.length_copy, hlen] at hcopy
      omega
    refine ⟨hle, fun i hi => ?_⟩
    have hbyte := congrArg (fun l => l[i]?) heq
    simp only [MemMbuf.copy, Nat.min_eq_left hle, List.getElem?_map, List.getElem?_range hi, Option.map_some,
      Nat.zero_add] at hbyte
    rw [hbyte, List.getElem?_take_of_lt hi, List.getElem?_drop]
  · rintro ⟨hle, hbytes⟩
    rw [Nat.min_eq_left hle]
    refine List.ext_getElem? fun i => ?_
    rcases Nat.lt_or_ge i len with hi | hi
    · rw [MemMbuf.copy, List.getElem?_map, List.getElem?_range hi, Option.map_some, Nat.zero_add, hbytes i hi,
        List.getElem?_take_of_lt hi, List.getElem?_drop]
    · rw [List.getElem?_eq_none (by rw [n.length_copy]; exact hi), List.getElem?_eq_none (by rw [hlen]; exact hi)]

end

/-! ## Main results -/

/-- **The bytes asked for are copied** exactly when the mbuf with the offset has no cluster, or its cluster happens to
hold them from `m_data` on. -/
theorem copydataRight_iff (m : List MemMbuf) (off len : ℕ) (h : off + len ≤ (memBytes m).length) :
    CopydataRight m off len ↔ CopydataOk m off len := by
  obtain ⟨front, hm, hoff, hle⟩ := mCopydataSkip_spec (show off ≤ (memBytes m).length by omega)
  rw [CopydataRight, CopydataOk, mCopydata]
  generalize hskip : mCopydataSkip off m = skip at hm hoff hle
  obtain ⟨c, o⟩ := skip
  cases c with
  | nil => simp
  | cons n rest =>
      dsimp only at hm hoff hle ⊢
      have hbytes : memBytes m = memBytes front ++ memBytes (n :: rest) := by
        rw [hm, memBytes, List.map_append, chainBytes_append]
        rfl
      have hlen : o + len ≤ (memBytes (n :: rest)).length := by
        rw [hbytes, List.length_append] at h
        omega
      have hdrop : (memBytes m).drop off = (memBytes (n :: rest)).drop o := by
        rw [hbytes, hoff, List.drop_append, List.drop_of_length_le (by omega), List.nil_append,
          Nat.add_sub_cancel_left]
      rw [hdrop]
      cases hext : n.mExt with
      | false =>
          rw [if_neg (by simp), mCopydataLoop_eq hle hlen]
          exact iff_of_true rfl fun h => by cases h
      | true =>
          rw [if_pos rfl, Option.some_inj, cluster_iff n rest hlen, imp_iff_right rfl]

/-- The front of a cluster. -/
theorem copydataOk_of_front {n : MemMbuf} {rest : List MemMbuf} {len : ℕ} (hlen : len ≤ n.mLen)
    (hle : len ≤ mCLBYTES) : CopydataOk (n :: rest) 0 len := by
  rw [CopydataOk, mCopydataSkip, if_pos rfl]
  refine fun _ => ⟨hle, fun i hi => ?_⟩
  have hbyte : i < n.bytes.length := hi.trans_le hlen
  rw [Nat.zero_add, memBytes_cons, List.getElem?_append_left hbyte, List.getElem?_eq_getElem hbyte, MemMbuf.mem,
    List.getD_eq_getElem _ _ hbyte]

/-- Two bytes in an mbuf, and four in a cluster. -/
def copydataChain : List MemMbuf :=
  [⟨⟨1, false, false, none, 0, [1, 2]⟩, fun _ => 0⟩, ⟨⟨1, true, false, none, 0, [3, 4, 5, 6]⟩, fun _ => 0⟩]

/-- From the mbuf on. -/
theorem copydataRight_iff_whole : CopydataRight copydataChain 1 4 :=
  (copydataRight_iff copydataChain 1 4 (by decide)).mpr (by decide)

/-- Two bytes from the middle of the cluster are asked for, and the first two are copied. -/
theorem copydata_can_copy_front :
    ¬ ∀ (m : List MemMbuf) (off len : ℕ), off + len ≤ (memBytes m).length → CopydataRight m off len := by
  intro hall
  have hcopied : mCopydata copydataChain 3 2 = some [3, 4] := by decide
  exact absurd (hcopied.symm.trans (hall copydataChain 3 2 (by decide))) (by decide)

end Shaunos.Net
