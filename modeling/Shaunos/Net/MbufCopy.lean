import Mathlib
import Shaunos.Net.MbufCluster

/-!
# What `m_copym` copies

Reference: `Kernel/mbuf.c` (`m_getptr`, `_m_copym`).

The offset counts for the first mbuf that is copied only. If that mbuf has its bytes in a cluster, the copy
gets its `m_data` and its cluster as they are, so that it starts where the mbuf starts, and not at the
offset.

* `mGetptr_spec` — where `m_getptr` ends;
* `chainBytes_mCopymLoop` — what the loop copies behind the first mbuf;
* `copymRight_iff` — when a copy has the bytes and the header that were asked for.
-/

namespace Shaunos.Net

open CountInv (copyRest copy_mLen mCopymLoop_nil mCopymLoop_stop mCopymLoop_zero mCopymLoop_succ
  mCopymLoop_top)

variable {κ : Type*}

/-- The bytes of a chain with clusters. -/
def clBytes (c : List (ClMbuf κ)) : List Byte := chainBytes (c.map ClMbuf.toMbuf)

@[simp] theorem clBytes_nil : clBytes ([] : List (ClMbuf κ)) = [] := rfl

@[simp] theorem clBytes_cons (m : ClMbuf κ) (c : List (ClMbuf κ)) :
    clBytes (m :: c) = m.bytes ++ clBytes c := by
  rw [clBytes, List.map_cons, chainBytes_cons]
  rfl

@[simp] theorem clBytes_append (c d : List (ClMbuf κ)) : clBytes (c ++ d) = clBytes c ++ clBytes d := by
  rw [clBytes, List.map_append, chainBytes_append]
  rfl

/-- An mbuf but for the counter of its cluster. -/
def ClMbuf.content (m : ClMbuf κ) : Mbuf × Option κ := (m.toMbuf, m.mExt.map Prod.fst)

/-- The bytes lie in the mbuf, or in its cluster. -/
def ClMbuf.InStorage (m : ClMbuf κ) : Prop :=
  m.mData + m.mLen ≤ if m.mExt.isSome then mCLBYTES else mLEN

instance (m : ClMbuf κ) : Decidable m.InStorage :=
  inferInstanceAs (Decidable (m.mData + m.mLen ≤ if m.mExt.isSome then mCLBYTES else mLEN))

theorem ClMbuf.InStorage.le {m : ClMbuf κ} (h : m.InStorage) : m.mLen ≤ mCLBYTES := by
  have hlen : mLEN ≤ mCLBYTES := by decide
  unfold InStorage at h
  split at h <;> omega

/-! ## What callers expect -/

/-- The bytes that a length asks for. -/
def asked (len : ℕ) (l : List Byte) : List Byte := if len = mCOPYALL then l else l.take len

/-- The header of a chain. -/
def chainHdr (c : List (ClMbuf κ)) : Option ℤ := c.head?.bind ClMbuf.mPkthdr

variable [DecidableEq κ]

/-- `m_copym` makes a new chain of the bytes asked for, with a header for their length if it starts at
the front of a chain with one, and changes nothing else but counters. -/
def CopymRight (s : MbufState κ) (i off len mem : ℕ) : Prop :=
  ∃ c top, mCopym s i off len mem = some ((s.setChain i c).push top) ∧
    c.map ClMbuf.content = (s.chain i).map ClMbuf.content ∧
    clBytes top = asked len ((clBytes (s.chain i)).drop off) ∧
    (off = 0 → ∀ l ∈ chainHdr (s.chain i), ∀ n ∈ top.head?,
      n.mPkthdr = some (if len = mCOPYALL then l else len))

/-- Behind some of the mbufs, as many bytes are left to copy as `M_COPYALL` says. -/
def LeavesAll (len : ℕ) (c : List (ClMbuf κ)) : Prop :=
  ∃ a b, c = a ++ b ∧ (clBytes a).length + mCOPYALL = len

/-- The first mbuf that is copied has its bytes in itself, or the copy starts at its first byte, or its bytes
are the same there; if a header is wanted, it has one; and a length that is not `M_COPYALL` does not become
so. -/
def CopymSame (s : MbufState κ) (i off len : ℕ) : Prop :=
  ∀ front m next o, mGetptr off (s.chain i) = some (front, m :: next, o) →
    (m.mExt ≠ none → m.bytes.take (min len (m.mLen - o)) =
      (m.bytes.drop o).take (min len (m.mLen - o))) ∧
    (off = 0 → 0 < len → ∀ l ∈ chainHdr (s.chain i),
      ∃ l', m.mPkthdr = some l' ∧ (len = mCOPYALL → l' = l)) ∧
    (len ≠ mCOPYALL → LeavesAll (len - (m.mLen - o)) next → (clBytes (s.chain i)).length ≤ off + len)

/-- There is memory for the copy. -/
def CopymMem (s : MbufState κ) (i off len mem : ℕ) : Prop :=
  ∀ r ∈ mGetptr off (s.chain i), mCopymNeeds len r.2.2 r.2.1 ≤ mem

instance (s : MbufState κ) (i off len mem : ℕ) : Decidable (CopymMem s i off len mem) :=
  inferInstanceAs (Decidable (∀ r ∈ mGetptr off (s.chain i), mCopymNeeds len r.2.2 r.2.1 ≤ mem))

section

variable {c next : List (ClMbuf κ)} {m : ClMbuf κ} {mem len offset : ℕ} {copyhdr : Bool}

/-! ## Where the copy starts -/

omit [DecidableEq κ] in
theorem length_clBytes_cons : (clBytes (m :: next)).length = m.mLen + (clBytes next).length := by
  rw [clBytes_cons, List.length_append, ClMbuf.mLen]

omit [DecidableEq κ] in
theorem mGetptr_spec (hc : c ≠ []) (hoff : offset ≤ (clBytes c).length) :
    ∃ front m next o, mGetptr offset c = some (front, m :: next, o) ∧ c = front ++ m :: next ∧
      offset = (clBytes front).length + o ∧ o ≤ m.mLen := by
  induction c generalizing offset with
  | nil => exact absurd rfl hc
  | cons m next ih =>
      rw [length_clBytes_cons] at hoff
      rw [mGetptr]
      by_cases hlt : offset < m.mLen
      · rw [if_pos hlt]
        exact ⟨[], m, next, offset, rfl, rfl, (Nat.zero_add offset).symm, hlt.le⟩
      · rw [if_neg hlt]
        by_cases hnext : next = []
        · subst hnext
          have hend : offset - m.mLen = 0 := by
            rw [clBytes_nil, List.length_nil] at hoff
            omega
          rw [if_pos rfl, if_pos hend]
          exact ⟨[], m, [], m.mLen, rfl, rfl, by rw [clBytes_nil, List.length_nil]; omega, le_rfl⟩
        · obtain ⟨front, m', next', o, hptr, hsplit, hlen, hle⟩ :=
            ih hnext (show offset - m.mLen ≤ (clBytes next).length by omega)
          rw [if_neg hnext, hptr]
          refine ⟨m :: front, m', next', o, rfl, ?_, ?_, hle⟩
          · rw [hsplit, List.cons_append]
          · rw [length_clBytes_cons]
            omega

/-! ## What the loop copies -/

omit [DecidableEq κ] in
theorem leavesAll_cons (hlen : len ≠ mCOPYALL) :
    LeavesAll len (m :: next) ↔ LeavesAll (len - m.mLen) next := by
  have hpos : 0 < mCOPYALL := by decide
  constructor
  · rintro ⟨a, b, hsplit, hleft⟩
    cases a with
    | nil =>
        rw [clBytes_nil, List.length_nil] at hleft
        omega
    | cons m' a =>
        obtain ⟨rfl, rfl⟩ := List.cons.inj hsplit
        rw [length_clBytes_cons] at hleft
        exact ⟨a, b, rfl, by omega⟩
  · rintro ⟨a, b, rfl, hleft⟩
    exact ⟨m :: a, b, rfl, by rw [length_clBytes_cons]; omega⟩

omit [DecidableEq κ] in
/-- The copy of an mbuf from its front on. -/
theorem copy_bytes_zero (hext : m.mExt = none ∨ offset = 0) (copyhdr : Bool) :
    (m.copy offset len copyhdr).bytes = (m.bytes.drop offset).take (min len (m.mLen - offset)) := by
  rw [ClMbuf.copy]
  rcases hext with hext | rfl
  · rw [hext]
    cases copyhdr <;> rfl
  · cases m.mExt <;> cases copyhdr <;> rfl

omit [DecidableEq κ] in
theorem copyRest_eq (hlen : len ≠ mCOPYALL) : copyRest m len offset = len - (m.mLen - offset) := by
  rw [copyRest, if_pos hlen]
  omega

open Classical in
omit [DecidableEq κ] in
/-- From the front of an mbuf on, the loop copies what it is asked for, unless `M_COPYALL` bytes are left at
some point. -/
theorem clBytes_mCopymLoop (hmem : mCopymNeeds len 0 c ≤ mem) (hfit : ∀ m ∈ c, m.InStorage) :
    clBytes (mCopymLoop mem len 0 copyhdr c).2.1 =
      if LeavesAll len c then clBytes c else (clBytes c).take len := by
  induction c generalizing mem len copyhdr with
  | nil =>
      rw [mCopymLoop_nil, clBytes_nil, List.take_nil, ite_self]
  | cons m next ih =>
      by_cases hlen : len = 0
      · have hnot : ¬ LeavesAll len (m :: next) := by
          rintro ⟨a, b, _, hleft⟩
          have hpos : 0 < mCOPYALL := by decide
          omega
        rw [mCopymLoop_stop hlen, if_neg hnot, hlen, List.take_zero]
        rfl
      have hm := (hfit m List.mem_cons_self).le
      rw [mCopymNeeds, if_neg hlen] at hmem
      obtain ⟨mem, rfl⟩ := Nat.exists_eq_add_of_le' (Nat.one_le_of_lt hmem)
      have hrest : clBytes (mCopymLoop mem (copyRest m len 0) 0 false next).2.1 =
          if LeavesAll (copyRest m len 0) next then clBytes next
          else (clBytes next).take (copyRest m len 0) :=
        ih (Nat.le_of_succ_le_succ hmem) fun m' hm' => hfit m' (List.mem_cons_of_mem m hm')
      rw [mCopymLoop_succ hlen]
      dsimp only
      rw [clBytes_cons, copy_bytes_zero (.inr rfl), hrest, List.drop_zero, Nat.sub_zero, clBytes_cons]
      by_cases hall : len = mCOPYALL
      · have hkeep : copyRest m len 0 = len := if_neg (not_not.mpr hall)
        have hle : mCLBYTES ≤ mCOPYALL := by decide
        have hself : ∀ c : List (ClMbuf κ), LeavesAll len c := fun c => ⟨[], c, rfl, by simp [hall]⟩
        rw [hkeep, if_pos (hself next), if_pos (hself _), List.take_of_length_le]
        rw [← ClMbuf.mLen]
        omega
      · rw [copyRest_eq hall, Nat.sub_zero, ← leavesAll_cons (m := m) hall]
        by_cases hleaves : LeavesAll len (m :: next)
        · rw [if_pos hleaves, if_pos hleaves]
          obtain ⟨a, b, hsplit, hleft⟩ := (leavesAll_cons hall).mp hleaves
          have hpos : 0 < mCOPYALL := by decide
          rw [List.take_of_length_le]
          rw [← ClMbuf.mLen]
          omega
        · rw [if_neg hleaves, if_neg hleaves, List.take_append, ← ClMbuf.mLen]
          congr 1
          rcases Nat.le_total len m.mLen with h | h
          · rw [Nat.min_eq_left h]
          · rw [Nat.min_eq_right h, List.take_of_length_le (show m.bytes.length ≤ len from h)]
            exact List.take_of_length_le le_rfl

omit [DecidableEq κ] in
/-- The loop changes counters only. -/
theorem content_mCopymLoop (mem len offset : ℕ) (copyhdr : Bool) :
    (mCopymLoop mem len offset copyhdr c).1.map ClMbuf.content = c.map ClMbuf.content := by
  induction c generalizing mem len offset copyhdr with
  | nil => rw [mCopymLoop_nil]
  | cons m next ih =>
      by_cases hlen : len = 0
      · rw [mCopymLoop_stop hlen]
      cases mem with
      | zero => rw [mCopymLoop_zero hlen]
      | succ mem =>
          have hincr : m.incr.content = m.content := by
            unfold ClMbuf.content ClMbuf.toMbuf ClMbuf.incr
            cases m.mExt <;> rfl
          rw [mCopymLoop_succ hlen, List.map_cons, List.map_cons, hincr, ih]

/-! ## When a copy is right -/

omit [DecidableEq κ] in
/-- The header of the copy of the first mbuf. -/
theorem copy_mPkthdr (offset len : ℕ) (copyhdr : Bool) : (m.copy offset len copyhdr).mPkthdr =
    if copyhdr then m.mPkthdr.map fun l => if len ≠ mCOPYALL then (len : ℤ) else l else none := by
  rw [ClMbuf.copy]
  cases m.mExt <;> cases copyhdr <;> rfl

omit [DecidableEq κ] in
theorem copy_header_iff {l : ℤ} (offset : ℕ) :
    (m.copy offset len true).mPkthdr = some (if len = mCOPYALL then l else (len : ℤ)) ↔
      ∃ l', m.mPkthdr = some l' ∧ (len = mCOPYALL → l' = l) := by
  rw [copy_mPkthdr, if_pos rfl]
  cases m.mPkthdr with
  | none => simp
  | some l' =>
      by_cases hall : len = mCOPYALL
      · simp [hall]
      · simp [hall]

omit [DecidableEq κ] in
/-- The copy of the first mbuf has the bytes from the offset on. -/
theorem copy_bytes_iff (copyhdr : Bool) :
    (m.copy offset len copyhdr).bytes = (m.bytes.drop offset).take (min len (m.mLen - offset)) ↔
      (m.mExt ≠ none → m.bytes.take (min len (m.mLen - offset)) =
        (m.bytes.drop offset).take (min len (m.mLen - offset))) := by
  cases hext : m.mExt with
  | none => exact iff_of_true (copy_bytes_zero (.inl hext) copyhdr) fun h => absurd rfl h
  | some x =>
      have hcopy : (m.copy offset len copyhdr).bytes = m.bytes.take (min len (m.mLen - offset)) := by
        rw [ClMbuf.copy, hext]
        cases copyhdr <;> rfl
      rw [hcopy, imp_iff_right (Option.some_ne_none x)]

/-- `m_copym` of a chain that has the offset, when there is memory. -/
theorem mCopym_eq {s : MbufState κ} {i : ℕ} {off : ℕ} {front : List (ClMbuf κ)}
    (hptr : mGetptr off (s.chain i) = some (front, m :: next, offset))
    (hmem : mCopymNeeds len offset (m :: next) ≤ mem)
    (hhdr : copyhdr = (decide (off = 0) && (chainHdr (s.chain i)).isSome)) :
    mCopym s i off len mem =
      if copyhdr = true ∧ 0 < len ∧ m.mPkthdr = none then none
      else some ((s.setChain i (front ++ (mCopymLoop mem len offset copyhdr (m :: next)).1)).push
        (mCopymLoop mem len offset copyhdr (m :: next)).2.1) := by
  have hdone : (mCopymLoop mem len offset copyhdr (m :: next)).2.2 = false := by
    rw [← Bool.not_eq_true, (mCopymLoop_top mem len offset copyhdr).1]
    exact not_lt.mpr hmem
  have hpos : 0 < len → 0 < mem := by
    intro hlen
    rw [mCopymNeeds, if_neg hlen.ne'] at hmem
    omega
  have hzero : decide ((off : ℤ) = 0) = decide (off = 0) := by simp
  rw [mCopym, if_neg (by omega), Int.toNat_natCast, hptr]
  simp only [hzero, Int.toNat_natCast]
  rw [show (decide (off = 0) && ((s.chain i).head?.bind ClMbuf.mPkthdr).isSome) = copyhdr from hhdr.symm,
    hdone]
  simp only [List.head?_cons, Option.bind_some, Int.natCast_pos]
  by_cases hfail : copyhdr = true ∧ 0 < len ∧ m.mPkthdr = none
  · rw [if_pos hfail, if_pos ⟨hfail.1, hfail.2.1, hpos hfail.2.1, hfail.2.2⟩]
  · rw [if_neg hfail, if_neg fun h => hfail ⟨h.1, h.2.1, h.2.2.2⟩]
    rfl

omit [DecidableEq κ] in
/-- What is asked for, from an offset in the first mbuf on. -/
theorem asked_append (hm : m.mLen ≤ mCLBYTES) (offset : ℕ) (l : List Byte) :
    asked len (m.bytes.drop offset ++ l) = (m.bytes.drop offset).take (min len (m.mLen - offset)) ++
      if len = mCOPYALL then l else l.take (len - (m.mLen - offset)) := by
  have hdrop : (m.bytes.drop offset).length = m.mLen - offset := List.length_drop
  have hle : mCLBYTES ≤ mCOPYALL := by decide
  unfold asked
  by_cases hall : len = mCOPYALL
  · rw [if_pos hall, if_pos hall, List.take_of_length_le (i := min len (m.mLen - offset)) (by omega)]
  · rw [if_neg hall, if_neg hall, List.take_append, hdrop]
    congr 1
    rcases Nat.le_total len (m.mLen - offset) with h | h
    · rw [Nat.min_eq_left h]
    · rw [Nat.min_eq_right h, List.take_of_length_le (hdrop.trans_le h), List.take_of_length_le hdrop.le]

omit [DecidableEq κ] in
/-- The loop copies what is asked for exactly when the copy of the first mbuf is right and the rest does not
turn into `M_COPYALL`. -/
theorem mCopymLoop_bytes_iff (hlen : len ≠ 0) (hm : m.mLen ≤ mCLBYTES) (hfit : ∀ m ∈ next, m.InStorage)
    (hmem : mCopymNeeds len offset (m :: next) ≤ mem) :
    clBytes (mCopymLoop mem len offset copyhdr (m :: next)).2.1 =
        asked len (m.bytes.drop offset ++ clBytes next) ↔
      (m.mExt ≠ none → m.bytes.take (min len (m.mLen - offset)) =
        (m.bytes.drop offset).take (min len (m.mLen - offset))) ∧
      (len ≠ mCOPYALL → LeavesAll (len - (m.mLen - offset)) next →
        (clBytes next).length ≤ len - (m.mLen - offset)) := by
  rw [mCopymNeeds, if_neg hlen] at hmem
  obtain ⟨mem, rfl⟩ := Nat.exists_eq_add_of_le' (Nat.one_le_of_lt hmem)
  have hsame : (m.copy offset len copyhdr).bytes.length =
      ((m.bytes.drop offset).take (min len (m.mLen - offset))).length := by
    rw [← ClMbuf.mLen, copy_mLen, List.length_take, List.length_drop, ← ClMbuf.mLen]
    omega
  have hsplit {a b : List Byte} : (m.copy offset len copyhdr).bytes ++ a =
      (m.bytes.drop offset).take (min len (m.mLen - offset)) ++ b ↔
      (m.copy offset len copyhdr).bytes = (m.bytes.drop offset).take (min len (m.mLen - offset)) ∧
        a = b := by
    constructor
    · exact fun h => List.append_inj h hsame
    · rintro ⟨h, rfl⟩
      rw [h]
  have hneeds : mCopymNeeds (copyRest m len offset) 0 next ≤ mem := Nat.le_of_succ_le_succ hmem
  rw [mCopymLoop_succ hlen]
  dsimp only
  rw [clBytes_cons, clBytes_mCopymLoop hneeds hfit, asked_append hm, hsplit, copy_bytes_iff]
  refine and_congr_right' ?_
  by_cases hall : len = mCOPYALL
  · have hkeep : copyRest m len offset = len := if_neg (not_not.mpr hall)
    have hleaves : LeavesAll len next := ⟨[], next, rfl, by simp [hall]⟩
    rw [hkeep, if_pos hleaves, if_pos hall]
    exact iff_of_true rfl fun h => absurd hall h
  · rw [copyRest_eq hall, if_neg hall, imp_iff_right hall]
    by_cases hleaves : LeavesAll (len - (m.mLen - offset)) next
    · rw [if_pos hleaves, imp_iff_right hleaves, eq_comm, List.take_eq_self_iff]
    · rw [if_neg hleaves]
      exact iff_of_true rfl fun h => absurd h hleaves

end

omit [DecidableEq κ] in
theorem push_inj {s t : MbufState κ} {c d : List (ClMbuf κ)} (h : s.push c = t.push d) : c = d := by
  have hchains : s.chains ++ [c] = t.chains ++ [d] := congrArg MbufState.chains h
  exact List.singleton_inj.mp (List.append_inj_right' hchains rfl)

/-- **A copy is right exactly when its first mbuf is.** -/
theorem copymRight_iff {s : MbufState κ} {i off len mem : ℕ} (hi : s.chain i ≠ [])
    (hfit : ∀ m ∈ s.chain i, m.InStorage)
    (hlen : off + len ≤ (clBytes (s.chain i)).length ∨
      len = mCOPYALL ∧ off ≤ (clBytes (s.chain i)).length)
    (hmem : CopymMem s i off len mem) :
    CopymRight s i off len mem ↔ CopymSame s i off len := by
  obtain ⟨front, m, next, o, hptr, hchain, hoff, hle⟩ := mGetptr_spec hi (show off ≤ (clBytes (s.chain i)).length by omega)
  have hneeds : mCopymNeeds len o (m :: next) ≤ mem := hmem _ hptr
  have hm : m ∈ s.chain i := by simp [hchain]
  have hnext : ∀ m' ∈ next, m'.InStorage := fun m' hm' => hfit m' (by simp [hchain, hm'])
  have hall : (clBytes (s.chain i)).length = (clBytes front).length + (m.mLen + (clBytes next).length) := by
    rw [hchain, clBytes_append, List.length_append, length_clBytes_cons]
  have hbytes : (clBytes (s.chain i)).drop off = m.bytes.drop o ++ clBytes next := by
    rw [hchain, clBytes_append, clBytes_cons, hoff, List.drop_append, List.drop_of_length_le (by omega),
      List.nil_append, Nat.add_sub_cancel_left, List.drop_append_of_le_length hle]
  have hsame : CopymSame s i off len ↔
      (m.mExt ≠ none → m.bytes.take (min len (m.mLen - o)) =
        (m.bytes.drop o).take (min len (m.mLen - o))) ∧
      (off = 0 → 0 < len → ∀ l ∈ chainHdr (s.chain i),
        ∃ l', m.mPkthdr = some l' ∧ (len = mCOPYALL → l' = l)) ∧
      (len ≠ mCOPYALL → LeavesAll (len - (m.mLen - o)) next →
        (clBytes (s.chain i)).length ≤ off + len) := by
    constructor
    · exact fun h => h front m next o hptr
    · intro h front' m' next' o' hptr'
      obtain ⟨rfl, ⟨rfl, rfl⟩, rfl⟩ : front = front' ∧ (m = m' ∧ next = next') ∧ o = o' := by
        simpa using hptr.symm.trans hptr'
      exact h
  set copyhdr := decide (off = 0) && (chainHdr (s.chain i)).isSome with hhdr
  have heq := mCopym_eq hptr hneeds hhdr
  have hfront : (front ++ (mCopymLoop mem len o copyhdr (m :: next)).1).map ClMbuf.content =
      (s.chain i).map ClMbuf.content := by
    rw [List.map_append, content_mCopymLoop, hchain, List.map_append]
  have hhdr' : off = 0 → ∀ l ∈ chainHdr (s.chain i), copyhdr = true := by
    intro hzero l hl
    rw [hhdr, Option.mem_def.mp hl, hzero]
    rfl
  rw [hsame]
  by_cases hfail : copyhdr = true ∧ 0 < len ∧ m.mPkthdr = none
  · rw [if_pos hfail] at heq
    obtain ⟨hcopy, hpos, hnone⟩ := hfail
    rw [hhdr, Bool.and_eq_true, decide_eq_true_iff] at hcopy
    obtain ⟨l, hl⟩ := Option.isSome_iff_exists.mp hcopy.2
    apply iff_of_false
    · rintro ⟨c, top, h, _⟩
      exact absurd (heq.symm.trans h) (by simp)
    · rintro ⟨_, h, _⟩
      obtain ⟨l', hl', _⟩ := h hcopy.1 hpos l hl
      exact absurd (hnone.symm.trans hl') (by simp)
  rw [if_neg hfail] at heq
  have hright : CopymRight s i off len mem ↔
      clBytes (mCopymLoop mem len o copyhdr (m :: next)).2.1 = asked len ((clBytes (s.chain i)).drop off) ∧
      (off = 0 → ∀ l ∈ chainHdr (s.chain i),
        ∀ n ∈ (mCopymLoop mem len o copyhdr (m :: next)).2.1.head?,
          n.mPkthdr = some (if len = mCOPYALL then l else (len : ℤ))) := by
    constructor
    · rintro ⟨c, top, h, _, hrest⟩
      obtain rfl := push_inj (Option.some.inj (heq.symm.trans h))
      exact hrest
    · exact fun h => ⟨_, _, heq, hfront, h⟩
  rw [hright, hbytes]
  by_cases hzero : len = 0
  · have hpos : 0 < mCOPYALL := by decide
    have hleaves : ¬ LeavesAll (len - (m.mLen - o)) next := by
      rintro ⟨a, b, _, hleft⟩
      omega
    rw [mCopymLoop_stop hzero]
    refine iff_of_true ⟨?_, fun _ l _ n hn => ?_⟩ ⟨fun _ => ?_, fun _ hlt => ?_, fun _ h => ?_⟩
    · rw [asked, if_neg (by omega), hzero, List.take_zero]
      rfl
    · cases hn
    · rw [hzero, Nat.zero_min, List.take_zero, List.take_zero]
    · omega
    · exact absurd h hleaves
  have hhead : (mCopymLoop mem len o copyhdr (m :: next)).2.1.head? = some (m.copy o len copyhdr) := by
    rw [mCopymNeeds, if_neg hzero] at hneeds
    obtain ⟨mem, rfl⟩ := Nat.exists_eq_add_of_le' (Nat.one_le_of_lt hneeds)
    rw [mCopymLoop_succ hzero]
    rfl
  have hheader : (off = 0 → ∀ l ∈ chainHdr (s.chain i),
        ∀ n ∈ (mCopymLoop mem len o copyhdr (m :: next)).2.1.head?,
          n.mPkthdr = some (if len = mCOPYALL then l else (len : ℤ))) ↔
      (off = 0 → 0 < len → ∀ l ∈ chainHdr (s.chain i),
        ∃ l', m.mPkthdr = some l' ∧ (len = mCOPYALL → l' = l)) := by
    rw [hhead]
    refine imp_congr_right fun hoff => ?_
    rw [imp_iff_right (Nat.pos_of_ne_zero hzero)]
    refine forall₂_congr fun l hl => ?_
    rw [← copy_header_iff o, ← hhdr' hoff l hl]
    exact ⟨fun h => h _ rfl, fun h n hn => Option.some.inj hn ▸ h⟩
  have hrest : (len ≠ mCOPYALL → LeavesAll (len - (m.mLen - o)) next →
        (clBytes next).length ≤ len - (m.mLen - o)) ↔
      (len ≠ mCOPYALL → LeavesAll (len - (m.mLen - o)) next →
        (clBytes (s.chain i)).length ≤ off + len) := by
    have hpos : 0 < mCOPYALL := by decide
    refine imp_congr_right fun _ => imp_congr_right fun h => ?_
    obtain ⟨a, b, _, hleft⟩ := h
    rw [hall, hoff]
    omega
  rw [mCopymLoop_bytes_iff hzero (hfit m hm).le hnext hneeds, hheader, hrest, and_assoc,
    and_comm (a := _ → LeavesAll _ _ → _)]

/-- Two mbufs, the second with a cluster. -/
def copyChain : MbufState ℕ where
  chains := [[⟨1, false, some 6, 8, [1, 2], none⟩, ⟨1, false, none, 0, [3, 4, 5, 6], some (7, 1)⟩]]
  clusters := {7}
  returned := []

/-- A copy of everything. -/
theorem copymRight_iff_all : CopymRight copyChain 0 0 mCOPYALL 2 ↔ CopymSame copyChain 0 0 mCOPYALL :=
  copymRight_iff (by decide) (by decide) (.inr ⟨rfl, by decide⟩) (by decide)

/-- Two bytes from the middle of the cluster are asked for, and the first two are copied. -/
theorem copym_can_copy_front :
    ¬ ∀ (s : MbufState ℕ) (i off len mem : ℕ), s.chain i ≠ [] → (∀ m ∈ s.chain i, m.InStorage) →
      off + len ≤ (clBytes (s.chain i)).length → CopymMem s i off len mem →
        CopymRight s i off len mem := by
  intro hall
  have ⟨c, top, heq, _, hbytes, _⟩ :=
    hall copyChain 0 3 2 1 (by decide) (by decide) (by decide) (by decide)
  have htop : (mCopym copyChain 0 3 2 1).map (fun t => clBytes (t.chain 1)) = some [3, 4] := by
    decide +kernel
  have hasked : asked 2 ((clBytes (copyChain.chain 0)).drop 3) = [4, 5] := by decide +kernel
  have hpush : ((copyChain.setChain 0 c).push top).chain 1 = top :=
    (copyChain.setChain 0 c).chain_push rfl
  rw [show mCopym copyChain 0 3 2 1 = _ from heq, Option.map_some, hpush, hbytes, hasked] at htop
  exact absurd (Option.some.inj htop) (by decide)

end Shaunos.Net
