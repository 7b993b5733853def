import Shaunos.Mm.Uiomove

/-!
# Reading and writing with a vector

Reference: `Kernel/vfs.c` (`kreadv`, `kwritev`), `Include/kernel/uio.h`.

Both functions copy the vector from the user, check its elements, and hand them to `kread` or `kwrite` one after
the other. Both loops are `while (nr_seg++ < iovcnt)`, and their bodies use `iov[nr_seg]`, which is the element
behind the one that was compared. What stands behind the copy of the vector may be anything. `kread` and `kwrite`
are any function that takes a range, which may not come back.

* `transferSegs_eq` — what is transferred are the elements from the second one to the one behind the last;
* `readv_writev_never_right` — the element behind the last one is always looked at.
-/

namespace Shaunos.Fs

open Mm

/-! ## The code -/

def uioMAXIOV : ℤ := 1024
def uioSMALLIOV : ℤ := 8
def enomem : ℤ := 12

/-- A number as a `ssize_t`. -/
def wrapSsize (n : ℤ) : ℤ := n.bmod (2 ^ 32)

/-- What comes of a call: its result and the state of the system, if it comes back, and the elements of the copied
vector that it has looked at. -/
structure VecRun (S : Type*) where
  result : Option (ℤ × S)
  reads : List ℕ

section

variable {S : Type*} (probe : BitVec 32 → BitVec 32 → ℤ) (transfer : Iovec → S → Option (ℤ × S)) (iov : ℕ → Iovec)

/-- The first loop, with `left` turns to go: the total, if no check fails. -/
def checkSegs : (left nrSeg : ℕ) → (totLen : ℤ) → (reads : List ℕ) → Option ℤ × List ℕ
  | 0, _, totLen, reads => (some totLen, reads)
  | left + 1, nrSeg, totLen, reads =>
      let nrSeg := nrSeg + 1
      let reads := reads ++ [nrSeg]
      let len := wrapSsize (iov nrSeg).iovLen
      if len < 0 then (none, reads)
      else if probe (iov nrSeg).iovBase (BitVec.ofInt 32 len) < 0 then (none, reads)
      else
        let totLen := wrapSsize (totLen + len)
        if totLen < 0 then (none, reads) else checkSegs left nrSeg totLen reads

/-- The second loop. -/
def transferSegs : (left nrSeg : ℕ) → (totLen : ℤ) → (reads : List ℕ) → S → VecRun S
  | 0, _, totLen, reads, s => ⟨some (totLen, s), reads⟩
  | left + 1, nrSeg, totLen, reads, s =>
      let nrSeg := nrSeg + 1
      let reads := reads ++ [nrSeg]
      match transfer (iov nrSeg) s with
      | none => ⟨none, reads⟩
      | some (ret, s) =>
          if ret < 0 then ⟨some (ret, s), reads⟩
          else transferSegs left nrSeg (wrapSsize (totLen + ret)) reads s

/-- `kreadv` and `kwritev`. `alloc` tells if `kmalloc` finds memory, and `vec` is the copy of the vector with what
stands behind it, if it can be copied. -/
def transferv (alloc : Bool) (vec : Option (ℕ → Iovec)) (iovcnt : ℤ) (s : S) : VecRun S :=
  if iovcnt > uioMAXIOV ∨ iovcnt ≤ 0 then ⟨some (-Mm.eINVAL, s), []⟩
  else if iovcnt > uioSMALLIOV ∧ alloc = false then ⟨some (-enomem, s), []⟩
  else
    match vec with
    | none => ⟨some (-Mm.eFAULT, s), []⟩
    | some iov =>
        match checkSegs probe iov iovcnt.toNat 0 0 [] with
        | (none, reads) => ⟨some (-Mm.eINVAL, s), reads⟩
        | (some totLen, reads) =>
            if totLen = 0 then ⟨some (0, s), reads⟩ else transferSegs transfer iov iovcnt.toNat 0 0 reads s

end

section

variable {S : Type*} (as : AddrSpace)

/-- `kreadv`, where `kread` is what `kread(fd, base, len)` does. -/
def kreadv (kread : Iovec → S → Option (ℤ × S)) (alloc : Bool) (vec : Option (ℕ → Iovec)) (iovcnt : ℤ) (s : S) :
    VecRun S :=
  transferv (probeForWrite as) kread alloc vec iovcnt s

/-- `kwritev`, where `kwrite` is what `kwrite(fd, base, len)` does. -/
def kwritev (kwrite : Iovec → S → Option (ℤ × S)) (alloc : Bool) (vec : Option (ℕ → Iovec)) (iovcnt : ℤ) (s : S) :
    VecRun S :=
  transferv probeForRead kwrite alloc vec iovcnt s

end

/-! ## What they should do -/

section

variable {S : Type*}

/-- The elements of a vector one after the other, up to an error. -/
def inOrder (transfer : Iovec → S → Option (ℤ × S)) : List Iovec → ℤ → S → Option (ℤ × S)
  | [], tot, s => some (tot, s)
  | iov :: iovs, tot, s => do
      let (ret, s) ← transfer iov s
      if ret < 0 then return (ret, s) else inOrder transfer iovs (wrapSsize (tot + ret)) s

/-- The copy of a vector, with `behind` behind it. -/
def copied (uiov : List Iovec) (behind : ℕ → Iovec) (i : ℕ) : Iovec := uiov.getD i (behind i)

/-- The vector passes the checks that are meant: no length and no sum of lengths is negative, and every range
passes its probe. -/
structure Checked (probe : BitVec 32 → BitVec 32 → ℤ) (uiov : List Iovec) : Prop where
  sum : (uiov.map Iovec.iovLen).sum < 2 ^ 31
  probed : ∀ iov ∈ uiov, 0 ≤ probe iov.iovBase (BitVec.ofNat 32 iov.iovLen)

/-- The call does what the elements of the vector do in order, and looks at nothing else. -/
def VecRight (transfer : Iovec → S → Option (ℤ × S)) (uiov : List Iovec) (s : S) (run : VecRun S) : Prop :=
  run.result = inOrder transfer uiov 0 s ∧ ∀ i ∈ run.reads, i < uiov.length

/-! ## What they do -/

variable {probe : BitVec 32 → BitVec 32 → ℤ} {transfer : Iovec → S → Option (ℤ × S)} {iov : ℕ → Iovec}
  {uiov : List Iovec} {behind : ℕ → Iovec} {s : S} {left nrSeg : ℕ} {totLen : ℤ} {reads : List ℕ}

/-- **The second loop transfers** the elements behind those that it counts. -/
theorem transferSegs_eq (left nrSeg : ℕ) (totLen : ℤ) (reads : List ℕ) (s : S) :
    (transferSegs transfer iov left nrSeg totLen reads s).result =
      inOrder transfer ((List.range' (nrSeg + 1) left).map iov) totLen s := by
  induction left generalizing nrSeg totLen reads s with
  | zero => rfl
  | succ left ih =>
      rw [transferSegs, List.range'_succ, List.map_cons, inOrder]
      simp only [Option.bind_eq_bind]
      cases transfer (iov (nrSeg + 1)) s with
      | none => rfl
      | some r =>
          simp only [Option.bind_some]
          split_ifs
          · rfl
          · exact ih _ _ _ _

/-- The loops only add to what has been looked at. -/
theorem subset_transferSegs (left nrSeg : ℕ) (totLen : ℤ) (reads : List ℕ) (s : S) :
    reads ⊆ (transferSegs transfer iov left nrSeg totLen reads s).reads := by
  induction left generalizing nrSeg totLen reads s with
  | zero => exact List.Subset.refl _
  | succ left ih =>
      rw [transferSegs]
      have happ : reads ⊆ reads ++ [nrSeg + 1] := List.subset_append_left _ _
      cases transfer (iov (nrSeg + 1)) s with
      | none => exact happ
      | some r =>
          dsimp only
          split_ifs
          · exact happ
          · exact fun i hi => ih _ _ _ _ (happ hi)

theorem subset_checkSegs (left nrSeg : ℕ) (totLen : ℤ) (reads : List ℕ) :
    reads ⊆ (checkSegs probe iov left nrSeg totLen reads).2 := by
  induction left generalizing nrSeg totLen reads with
  | zero => exact List.Subset.refl _
  | succ left ih =>
      rw [checkSegs]
      have happ : reads ⊆ reads ++ [nrSeg + 1] := List.subset_append_left _ _
      dsimp only
      split_ifs
      · exact happ
      · exact happ
      · exact happ
      · exact fun i hi => ih _ _ _ (happ hi)

theorem wrapSsize_of_lt {n : ℕ} (h : n < 2 ^ 31) : wrapSsize n = n :=
  Int.bmod_eq_of_le (by omega) (by omega)

/-- **The first loop** goes on through the elements of the vector, and comes to the one behind them. -/
theorem length_mem_checkSegs (behind : ℕ → Iovec) (h : Checked probe uiov) (hseg : nrSeg < uiov.length)
    (htot : totLen + ((uiov.drop (nrSeg + 1)).map Iovec.iovLen).sum < 2 ^ 31) (hpos : 0 ≤ totLen) (reads : List ℕ) :
    uiov.length ∈ (checkSegs probe (copied uiov behind) (uiov.length - nrSeg) nrSeg totLen reads).2 := by
  obtain ⟨left, hleft⟩ : ∃ left, uiov.length - nrSeg = left + 1 := ⟨uiov.length - nrSeg - 1, by omega⟩
  induction left generalizing nrSeg totLen reads with
  | zero =>
      -- the last turn
      have hlast : nrSeg + 1 = uiov.length := by omega
      rw [hleft, checkSegs, hlast]
      dsimp only
      have hmem : uiov.length ∈ reads ++ [uiov.length] := by simp
      split_ifs
      · exact hmem
      · exact hmem
      · exact hmem
      · exact hmem
  | succ left ih =>
      have hnext : nrSeg + 1 < uiov.length := by omega
      have helem : copied uiov behind (nrSeg + 1) = uiov[nrSeg + 1] := by
        rw [copied, List.getD_eq_getElem?_getD, List.getElem?_eq_getElem hnext]
        rfl
      have hsum := htot
      rw [List.drop_eq_getElem_cons hnext, List.map_cons, List.sum_cons, Nat.cast_add] at hsum
      have hlen : (uiov[nrSeg + 1]).iovLen < 2 ^ 31 := by omega
      have hlen' : wrapSsize (uiov[nrSeg + 1]).iovLen = (uiov[nrSeg + 1]).iovLen := wrapSsize_of_lt hlen
      have hprobe := h.probed _ (List.getElem_mem hnext)
      have htot' : wrapSsize (totLen + (uiov[nrSeg + 1]).iovLen) = totLen + (uiov[nrSeg + 1]).iovLen :=
        Int.bmod_eq_of_le (by omega) (by omega)
      have hofInt : BitVec.ofInt 32 (uiov[nrSeg + 1]).iovLen = BitVec.ofNat 32 (uiov[nrSeg + 1]).iovLen :=
        BitVec.ofInt_natCast _ _
      have hrest : uiov.length - (nrSeg + 1) = left + 1 := by omega
      rw [hleft, checkSegs]
      simp only [helem, hlen', hofInt, htot']
      rw [if_neg (by omega), if_neg (by omega), if_neg (by omega), ← hrest]
      exact ih hnext (by omega) (by omega) _ hrest

theorem length_mem_transferv (h : Checked probe uiov) (hpos : 0 < uiov.length) (hmax : (uiov.length : ℤ) ≤ uioMAXIOV)
    {alloc : Bool} (halloc : uiov.length ≤ uioSMALLIOV ∨ alloc = true) :
    uiov.length ∈ (transferv probe transfer alloc (some (copied uiov behind)) uiov.length s).reads := by
  have hsum : (0 : ℤ) + ((uiov.drop 1).map Iovec.iovLen).sum < 2 ^ 31 := by
    have htail : ((uiov.drop 1).map Iovec.iovLen).sum ≤ (uiov.map Iovec.iovLen).sum := by
      cases uiov with
      | nil => simp
      | cons iov rest => simp
    have := h.sum
    omega
  have hmem := length_mem_checkSegs behind h hpos hsum le_rfl []
  have hcnt : (uiov.length : ℤ).toNat = uiov.length - 0 := by omega
  have hguard : ¬ ((uiov.length : ℤ) > uioSMALLIOV ∧ alloc = false) := by
    rintro ⟨hgt, hnone⟩
    rcases halloc with hle | hsome
    · omega
    · simp [hnone] at hsome
  rw [transferv, if_neg (by omega), if_neg hguard, hcnt]
  generalize checkSegs probe (copied uiov behind) (uiov.length - 0) 0 0 [] = check at hmem
  obtain ⟨tot, reads⟩ := check
  cases tot with
  | none => exact hmem
  | some tot =>
      simp only
      split_ifs
      · exact hmem
      · exact subset_transferSegs _ _ _ _ _ hmem

end

section

variable {S : Type*}

/-- **The calls are never right**: they look behind the vector. -/
theorem readv_writev_never_right (as : AddrSpace) (transfer : Iovec → S → Option (ℤ × S)) (uiov : List Iovec)
    (behind : ℕ → Iovec) (alloc : Bool) (s : S) (hpos : 0 < uiov.length) (hmax : (uiov.length : ℤ) ≤ uioMAXIOV)
    (halloc : uiov.length ≤ uioSMALLIOV ∨ alloc = true) :
    (Checked (probeForWrite as) uiov →
        ¬ VecRight transfer uiov s (kreadv as transfer alloc (some (copied uiov behind)) uiov.length s)) ∧
      (Checked probeForRead uiov →
        ¬ VecRight transfer uiov s (kwritev transfer alloc (some (copied uiov behind)) uiov.length s)) := by
  constructor
  · intro h hright
    exact absurd (hright.2 _ (length_mem_transferv h hpos hmax halloc)) (lt_irrefl _)
  · intro h hright
    exact absurd (hright.2 _ (length_mem_transferv h hpos hmax halloc)) (lt_irrefl _)

end

/-! ## A vector of one element -/

/-- A `kread` or `kwrite` that transfers all bytes and takes down where. -/
def takeDown (iov : Iovec) (s : List (BitVec 32)) : Option (ℤ × List (BitVec 32)) :=
  some (iov.iovLen, s ++ [iov.iovBase])

/-- A byte of the user's page, and what stands behind the vector. -/
def oneRange : List Iovec := [⟨0x400000, 1⟩]

def behindOne (_ : ℕ) : Iovec := ⟨0x400010, 2⟩

theorem oneRange_checked : Checked (probeForWrite twoPages) oneRange ∧ Checked probeForRead oneRange := by
  refine ⟨⟨by decide, ?_⟩, ⟨by decide, ?_⟩⟩
  · intro iov hiov
    obtain rfl := List.mem_singleton.mp hiov
    decide +kernel
  · intro iov hiov
    obtain rfl := List.mem_singleton.mp hiov
    decide +kernel

theorem readv_writev_never_right_one :
    ¬ VecRight takeDown oneRange [] (kreadv twoPages takeDown true (some (copied oneRange behindOne)) 1 []) ∧
      ¬ VecRight takeDown oneRange [] (kwritev takeDown true (some (copied oneRange behindOne)) 1 []) :=
  have hnever := readv_writev_never_right twoPages takeDown oneRange behindOne true [] (by decide) (by decide)
    (.inr rfl)
  ⟨hnever.1 oneRange_checked.1, hnever.2 oneRange_checked.2⟩

/-- The element behind the vector is transferred, and not the one in it. -/
theorem readv_writev_off_by_one :
    (kreadv twoPages takeDown true (some (copied oneRange behindOne)) 1 []).result = some (2, [0x400010]) ∧
      (kwritev takeDown true (some (copied oneRange behindOne)) 1 []).result = some (2, [0x400010]) ∧
      inOrder takeDown oneRange 0 [] = some (1, [0x400000]) ∧
      ¬ ∀ (as : AddrSpace) (transfer : Iovec → List (BitVec 32) → Option (ℤ × List (BitVec 32)))
        (uiov : List Iovec) (behind : ℕ → Iovec) (s : List (BitVec 32)), 0 < uiov.length →
        (uiov.length : ℤ) ≤ uioMAXIOV → Checked (probeForWrite as) uiov →
        VecRight transfer uiov s (kreadv as transfer true (some (copied uiov behind)) uiov.length s) := by
  refine ⟨by decide +kernel, by decide +kernel, by decide +kernel, ?_⟩
  intro hall
  have hright := hall twoPages takeDown oneRange behindOne [] (by decide) (by decide) oneRange_checked.1
  have hresult : (kreadv twoPages takeDown true (some (copied oneRange behindOne)) oneRange.length []).result =
      some (2, [0x400010]) := by decide +kernel
  exact absurd (hresult.symm.trans hright.1) (by decide +kernel)

end Shaunos.Fs
