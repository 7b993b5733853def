import Mathlib
import Shaunos.Common.Run
import Shaunos.Common.SplitCount
import Shaunos.Net.Mbuf

/-!
# Clusters of mbufs

Reference: `Include/kernel/mbuf.h` (`struct m_ext`), `Kernel/mbuf.c` (`m_get`, `m_gethdr`, `m_free`,
`m_freem`, `m_clget`, `m_pullup`, `_m_copym`, `m_getptr`, `m_adj`).

The bytes of an mbuf can be in a cluster that it shares with others. The counter of a cluster is in
`m_ext`, so that each mbuf has its own: `_m_copym` hands out the counter as it was and then counts one more in
the mbuf it copies.

* `CountInv.mFree`, `CountInv.mFreem`, `CountInv.mCopym`, `CountInv.mPullup` — one rule for each function;
* `clustersRight_iff` — when each cluster is returned exactly once, with its last mbuf.
-/

namespace Shaunos.Net

/-! ## The code -/

def mHLEN : ℕ := 100
def mAXMCLBYTES : ℕ := 64 * 1024
def mCOPYALL : ℕ := 1000000000

/-- `struct mbuf`, with a cluster or without. -/
structure ClMbuf (κ : Type*) where
  mType : ℤ
  mEor : Bool
  /-- `m_pkthdr.len`, with `m_flags & M_PKTHDR`. -/
  mPkthdr : Option ℤ
  /-- `m_data - m_dat`, or `m_data - m_ext.ext_buf` with a cluster. -/
  mData : ℕ
  /-- The `m_len` bytes from `m_data` on. -/
  bytes : List Byte
  /-- `m_ext.ext_buf` and `m_ext.ext_refcnt`, with `m_flags & M_EXT`. -/
  mExt : Option (Share κ)
deriving DecidableEq

/-- All chains that somebody holds, and the clusters that are allocated. -/
structure MbufState (κ : Type*) where
  chains : List (List (ClMbuf κ))
  clusters : Finset κ
  /-- The clusters that were returned, the last one first, and whether an mbuf still referred to it. -/
  returned : List (κ × Bool)

section

variable {κ : Type*}

/-- `m_len`. -/
def ClMbuf.mLen (m : ClMbuf κ) : ℕ := m.bytes.length

/-- The rest of an mbuf. -/
def ClMbuf.toMbuf (m : ClMbuf κ) : Mbuf :=
  { mType := m.mType, mExt := m.mExt.isSome, mEor := m.mEor, mPkthdr := m.mPkthdr, mData := m.mData
    bytes := m.bytes }

/-- The clusters that a chain refers to. -/
def shares (c : List (ClMbuf κ)) : List (Share κ) := c.filterMap ClMbuf.mExt

/-- What `m_get` makes of zeroed memory. -/
def mGetInit (mType : ℤ) : ClMbuf κ :=
  { mType := mType, mEor := false, mPkthdr := none, mData := 0, bytes := [], mExt := none }

/-- What `m_gethdr` makes of zeroed memory. -/
def mGethdrInit (mType : ℤ) : ClMbuf κ :=
  { mType := mType, mEor := false, mPkthdr := some 0, mData := 8, bytes := [], mExt := none }

/-- `m_clget` for an mbuf that is as `m_get` left it, but for its header: `ext_refcnt` goes from 0 to 1. -/
def ClMbuf.clget (m : ClMbuf κ) (b : κ) : ClMbuf κ := { m with mData := 0, mExt := some (b, 0 + 1) }

namespace MbufState

variable (s : MbufState κ)

def chain (i : ℕ) : List (ClMbuf κ) := s.chains.getD i []

def setChain (i : ℕ) (c : List (ClMbuf κ)) : MbufState κ := { s with chains := s.chains.set i c }

/-- A chain for a new variable. -/
def push (c : List (ClMbuf κ)) : MbufState κ := { s with chains := s.chains ++ [c] }

/-- All clusters that are referred to. -/
def allShares : List (Share κ) := shares s.chains.flatten

/-- Those that the other chains refer to. -/
def otherShares (i : ℕ) : List (Share κ) := (s.setChain i []).allShares

end MbufState

variable [DecidableEq κ]

/-- `MCLFREE`. It is a fault to return a cluster that is not allocated. -/
def MbufState.mclFree (s : MbufState κ) (b : κ) : Option (MbufState κ) :=
  if b ∈ s.clusters then
    some { s with
      clusters := s.clusters.erase b
      returned := (b, s.allShares.any fun y => y.1 = b) :: s.returned }
  else none

/-- `m_free`. The variable then holds `m_next`. -/
def mFree (s : MbufState κ) (i : ℕ) : Option (MbufState κ) :=
  match s.chain i with
  | [] => none
  | m :: next =>
      match m.mExt with
      | none => some (s.setChain i next)
      | some (b, refcnt) =>
          if refcnt - 1 = 0 then (s.setChain i next).mclFree b else some (s.setChain i next)

/-- The loop of `m_freem`, for a chain of `n` mbufs. -/
def mFreemLoop : (n : ℕ) → MbufState κ → (i : ℕ) → Option (MbufState κ)
  | 0, s, _ => some s
  | n + 1, s, i => (mFree s i).bind fun s => mFreemLoop n s i

/-- `m_freem`. It follows a null pointer. -/
def mFreem (s : MbufState κ) (i : ℕ) : Option (MbufState κ) :=
  if s.chain i = [] then none else mFreemLoop (s.chain i).length s i

/-- `m_clget` for a null pointer: the chain for the variable. `hdr` says that `m_gethdr` finds memory, and
`mem` is the cluster that `kzalloc` finds. -/
def mClgetNull (s : MbufState κ) (hdr : Bool) (mem : Option κ) : MbufState κ :=
  match hdr, mem with
  | true, some b => { s.push [(mGethdrInit 1).clget b] with clusters := insert b s.clusters }
  | true, none => s.push []
  | false, _ => s.push []

/-- `m_clget`. If there is no memory, it frees `m0`, which is null. -/
def mClget (s : MbufState κ) (i : ℕ) (mem : Option κ) : Option (MbufState κ) :=
  match s.chain i, mem with
  | m :: next, some b => some { s.setChain i (m.clget b :: next) with clusters := insert b s.clusters }
  | _, _ => none

/-- `m_getptr`: the rest of the chain, and the offset in its first mbuf. -/
def mGetptr : (loc : ℕ) → List (ClMbuf κ) → Option (List (ClMbuf κ) × List (ClMbuf κ) × ℕ)
  | _, [] => none
  | loc, m :: next =>
      if loc < m.mLen then some ([], m :: next, loc)
      else if next = [] then if loc - m.mLen = 0 then some ([], m :: next, m.mLen) else none
      else (mGetptr (loc - m.mLen) next).map fun (front, rest, off) => (m :: front, rest, off)

/-- The copy of an mbuf. With a cluster, `m_data` stays as it is whatever the offset. -/
def ClMbuf.copy (m : ClMbuf κ) (offset len : ℕ) (copyhdr : Bool) : ClMbuf κ :=
  let n : ClMbuf κ := mGetInit m.mType
  let n := if copyhdr then
    { n with
      mEor := m.mEor
      mData := 8
      mPkthdr := m.mPkthdr.map fun l => if len ≠ mCOPYALL then (len : ℤ) else l } else n
  let count := min len (m.mLen - offset)
  if m.mExt.isSome then { n with mData := m.mData, bytes := m.bytes.take count, mExt := m.mExt }
  else { n with bytes := (m.bytes.drop offset).take count }

/-- `m->m_extrefcnt++`. -/
def ClMbuf.incr (m : ClMbuf κ) : ClMbuf κ := { m with mExt := m.mExt.map fun x => (x.1, x.2 + 1) }

/-- The loop of `_m_copym`: the chain, its copy, and whether there was no memory. `mem` mbufs can be had. -/
def mCopymLoop : (mem len offset : ℕ) → (copyhdr : Bool) → List (ClMbuf κ) →
    List (ClMbuf κ) × List (ClMbuf κ) × Bool
  | _, _, _, _, [] => ([], [], false)
  | mem, len, offset, copyhdr, m :: next =>
      if len = 0 then (m :: next, [], false)
      else
        match mem with
        | 0 => (m :: next, [], true)
        | mem + 1 =>
            let n := m.copy offset len copyhdr
            let len := if len ≠ mCOPYALL then len - n.mLen else len
            let (next, top, failed) := mCopymLoop mem len 0 false next
            (m.incr :: next, n :: top, failed)

/-- `m_copym`, which asks for a copy that is not deep. The copy is in a new variable. -/
def mCopym (s : MbufState κ) (i : ℕ) (offset len : ℤ) (mem : ℕ) : Option (MbufState κ) :=
  if offset < 0 ∨ len < 0 then some (s.push [])
  else
    match mGetptr offset.toNat (s.chain i) with
    | none => some (s.push [])
    | some (front, rest, off) =>
        let copyhdr := decide (offset = 0) && ((s.chain i).head?.bind ClMbuf.mPkthdr).isSome
        -- the assertion of `m_dup_pkthdr`
        if copyhdr ∧ 0 < len ∧ 0 < mem ∧ rest.head?.bind ClMbuf.mPkthdr = none then none
        else
          let (rest, top, failed) := mCopymLoop mem len.toNat off copyhdr rest
          let t := (s.setChain i (front ++ rest)).push top
          if failed then mFreem t s.chains.length else some t

/-- `M_MOVE_PKTHDR`: what `m` gets from `n`. -/
def mMovePkthdr (m n : ClMbuf κ) : ClMbuf κ :=
  { m with mEor := n.mEor, mPkthdr := n.mPkthdr, mData := if m.mExt.isSome then m.mData else 8 }

/-- The end of `m_pullup`, where `m` is in the variable `k`. `m_freem` returns null, so that the loop has one
pass. If `m` was the first mbuf of the chain, its `m_next` is still the mbuf behind it. -/
def mPullupInto (s : MbufState κ) (i k len : ℕ) (inPlace : Bool) : Option (MbufState κ) :=
  match s.chain i, s.chain k with
  | n :: next, m :: _ =>
      let count := min len n.mLen
      let m := { m with bytes := m.bytes ++ n.bytes.take count }
      let n := { n with bytes := n.bytes.drop count }
      let s := s.setChain k [m]
      (if n.mLen ≠ 0 then some (s.setChain i ({ n with mData := n.mData + count } :: next))
        else mFreem (s.setChain i (n :: next)) i).bind fun s =>
      if 0 < len - count then
        if inPlace then none else mFreem s k
      else some ((s.setChain i (m :: s.chain i)).setChain k [])
  | _, _ => none

/-- The first mbuf of a chain has room for `len` bytes, and there is another one. -/
def PullsInPlace (n : ClMbuf κ) (next : List (ClMbuf κ)) (len : ℕ) : Prop :=
  (n.mExt = none ∧ next ≠ [] ∧ n.mData + len < mLEN) ∨
    (n.mExt ≠ none ∧ mHLEN < len ∧ next ≠ [] ∧ n.mData + len < mCLBYTES)

instance PullsInPlace.decidable (n : ClMbuf κ) (next : List (ClMbuf κ)) (len : ℕ) :
    Decidable (PullsInPlace n next len) :=
  inferInstanceAs (Decidable ((n.mExt = none ∧ next ≠ [] ∧ n.mData + len < mLEN) ∨
    (n.mExt ≠ none ∧ mHLEN < len ∧ next ≠ [] ∧ n.mData + len < mCLBYTES)))

/-- `m_pullup` into a new mbuf, in the variable `k`. `mem` is the cluster that `kzalloc` finds. -/
def mPullupNew (s : MbufState κ) (i k len : ℕ) (n : ClMbuf κ) (next : List (ClMbuf κ)) (mem : Option κ) :
    Option (MbufState κ) :=
  (if mHLEN < len then mClget (s.push [mGetInit n.mType]) k mem else some (s.push [mGetInit n.mType])).bind
    fun s =>
  match n.mPkthdr with
  | none => mPullupInto s i k len false
  | some _ => mPullupInto ((s.setChain k ((s.chain k).map fun m => mMovePkthdr m n)).setChain i
      ({ n with mPkthdr := none } :: next)) i k len false

/-- `m_pullup`. `mget` says that `m_get` finds memory. -/
def mPullup (s : MbufState κ) (i len : ℕ) (mget : Bool) (mem : Option κ) : Option (MbufState κ) :=
  match s.chain i with
  | [] => none
  | n :: next =>
      if PullsInPlace n next len then
        if len ≤ n.mLen then some s
        else mPullupInto ((s.setChain i next).push [n]) i s.chains.length (len - n.mLen) true
      else if mAXMCLBYTES < len ∨ mget = false then mFreem s i
      else mPullupNew s i s.chains.length len n next mem

/-- `m_adj`, which leaves `m_ext` as it is. -/
def mAdjCl (c : List (ClMbuf κ)) (reqLen : ℤ) : List (ClMbuf κ) :=
  List.zipWith (fun m x => { m with mPkthdr := x.mPkthdr, mData := x.mData, bytes := x.bytes }) c
    (mAdj (c.map ClMbuf.toMbuf) reqLen)

/-! ## Runs -/

/-- The calls, and what else callers do to chains. -/
inductive MbufCall (κ : Type*) where
  /-- `m_get` or `m_gethdr`. -/
  | mGet (hdr : Bool) (mType : ℤ) (mem : Bool)
  /-- The same, and then `m_clget`. -/
  | mGetCl (hdr : Bool) (mType : ℤ) (mem : Bool) (cl : Option κ)
  | mClgetNull (hdr : Bool) (mem : Option κ)
  | mFree (i : ℕ)
  | mFreem (i : ℕ)
  | mCopym (i : ℕ) (offset len : ℤ) (mem : ℕ)
  | mPullup (i len : ℕ) (mget : Bool) (mem : Option κ)
  | mAdj (i : ℕ) (reqLen : ℤ)
  /-- Bytes are written to an mbuf, and `m_data` and `m_len` are set. -/
  | fill (i j : ℕ) (mData : ℕ) (bytes : List Byte)
  /-- A chain is put behind another one. -/
  | link (i j : ℕ)
  /-- A chain is cut off behind some of its mbufs. -/
  | cut (i n : ℕ)

/-- One call. -/
def MbufState.call (s : MbufState κ) : MbufCall κ → Option (MbufState κ)
  | .mGet hdr mType mem =>
      some (s.push (if mem then [if hdr then mGethdrInit mType else mGetInit mType] else []))
  | .mGetCl hdr mType mem cl =>
      if mem then mClget (s.push [if hdr then mGethdrInit mType else mGetInit mType]) s.chains.length cl
      else some (s.push [])
  | .mClgetNull hdr mem => some (mClgetNull s hdr mem)
  | .mFree i => mFree s i
  | .mFreem i => mFreem s i
  | .mCopym i offset len mem => mCopym s i offset len mem
  | .mPullup i len mget mem => mPullup s i len mget mem
  | .mAdj i reqLen => some (s.setChain i (mAdjCl (s.chain i) reqLen))
  | .fill i j mData bytes => some (s.setChain i ((s.chain i).modify j fun m =>
      { m with mData := mData, bytes := bytes }))
  | .link i j => some ((s.setChain i (s.chain i ++ s.chain j)).setChain j [])
  | .cut i n => some ((s.setChain i ((s.chain i).take n)).push ((s.chain i).drop n))

/-- The variables are the callers' own, and memory that `kzalloc` finds is not in use. -/
def MbufCall.Fits (s : MbufState κ) : MbufCall κ → Prop
  | .mGet .. => True
  | .mGetCl _ _ _ cl => ∀ b ∈ cl, b ∉ s.clusters
  | .mClgetNull _ mem => ∀ b ∈ mem, b ∉ s.clusters
  | .mFree i => s.chain i ≠ []
  | .mFreem i => s.chain i ≠ []
  | .mCopym i .. => s.chain i ≠ []
  | .mPullup i _ _ mem => s.chain i ≠ [] ∧ ∀ b ∈ mem, b ∉ s.clusters
  | .mAdj .. => True
  | .fill .. => True
  | .link i j => i ≠ j ∧ s.chain i ≠ []
  | .cut .. => True

/-- No counter gets too large for 32 bits. -/
def MbufCall.NoWrap (s : MbufState κ) : MbufCall κ → Prop
  | .mCopym i .. => ∀ x ∈ shares (s.chain i), x.2 + 1 ≠ 0
  | _ => True

/-- How many mbufs a copy needs. -/
def mCopymNeeds : (len offset : ℕ) → List (ClMbuf κ) → ℕ
  | _, _, [] => 0
  | len, offset, m :: next =>
      if len = 0 then 0
      else mCopymNeeds (if len ≠ mCOPYALL then len - min len (m.mLen - offset) else len) 0 next + 1

/-- `m_copym` must not run out of memory before the first mbuf, nor behind one that counts 1: the copies are
then freed again. Its first mbuf must have the header that it looks for. -/
def MCopymOk (s : MbufState κ) (i : ℕ) (offset len : ℤ) (mem : ℕ) : Prop :=
  0 ≤ offset → 0 ≤ len → ∀ r ∈ mGetptr offset.toNat (s.chain i),
    (offset = 0 → ((s.chain i).head?.bind ClMbuf.mPkthdr).isSome → 0 < len → 0 < mem →
      r.2.1.head?.bind ClMbuf.mPkthdr ≠ none) ∧
    (mem < mCopymNeeds len.toNat r.2.2 r.2.1 → 0 < mem ∧ ∀ x ∈ shares (r.2.1.take mem), x.2 ≠ 1)

/-- What `m_pullup` frees must be right to free, and an mbuf at the front that is kept needs no more than
what the next one has. -/
def PullupOk (others : List (Share κ)) (len : ℕ) (mget : Bool) (mem : Option κ) : List (ClMbuf κ) → Prop
  | [] => True
  | n :: next =>
      if PullsInPlace n next len then
        n.mLen < len → ∀ n₂ ∈ next.head?, len - n.mLen ≤ n₂.mLen ∧
          (n₂.mLen = len - n.mLen → LastOk (shares next) (shares [n] ++ others))
      else if mAXMCLBYTES < len ∨ mget = false then LastOk (shares (n :: next)) others
      else (mHLEN < len → mem ≠ none) ∧ (n.mLen ≤ len → LastOk (shares (n :: next)) others)

/-- What is freed must not count 1 while something else refers to the cluster. -/
def MbufCall.Ok (s : MbufState κ) : MbufCall κ → Prop
  | .mGetCl _ _ mem cl => mem = true → cl ≠ none
  | .mFree i => LastOk (shares ((s.chain i).take 1)) (shares ((s.chain i).drop 1) ++ s.otherShares i)
  | .mFreem i => LastOk (shares (s.chain i)) (s.otherShares i)
  | .mCopym i offset len mem => MCopymOk s i offset len mem
  | .mPullup i len mget mem => PullupOk (s.otherShares i) len mget mem (s.chain i)
  | _ => True

instance MCopymOk.decidable (s : MbufState κ) (i : ℕ) (offset len : ℤ) (mem : ℕ) :
    Decidable (MCopymOk s i offset len mem) :=
  inferInstanceAs (Decidable (0 ≤ offset → 0 ≤ len → ∀ r ∈ mGetptr offset.toNat (s.chain i),
    (offset = 0 → ((s.chain i).head?.bind ClMbuf.mPkthdr).isSome → 0 < len → 0 < mem →
      r.2.1.head?.bind ClMbuf.mPkthdr ≠ none) ∧
    (mem < mCopymNeeds len.toNat r.2.2 r.2.1 → 0 < mem ∧ ∀ x ∈ shares (r.2.1.take mem), x.2 ≠ 1)))

instance PullupOk.decidable (others : List (Share κ)) (len : ℕ) (mget : Bool) (mem : Option κ) :
    ∀ c : List (ClMbuf κ), Decidable (PullupOk others len mget mem c)
  | [] => isTrue trivial
  | n :: next => inferInstanceAs (Decidable (
      if PullsInPlace n next len then
        n.mLen < len → ∀ n₂ ∈ next.head?, len - n.mLen ≤ n₂.mLen ∧
          (n₂.mLen = len - n.mLen → LastOk (shares next) (shares [n] ++ others))
      else if mAXMCLBYTES < len ∨ mget = false then LastOk (shares (n :: next)) others
      else (mHLEN < len → mem ≠ none) ∧ (n.mLen ≤ len → LastOk (shares (n :: next)) others)))

instance MbufCall.decidableFits (s : MbufState κ) : ∀ c : MbufCall κ, Decidable (c.Fits s)
  | .mGet .. => isTrue trivial
  | .mGetCl _ _ _ cl => inferInstanceAs (Decidable (∀ b ∈ cl, b ∉ s.clusters))
  | .mClgetNull _ mem => inferInstanceAs (Decidable (∀ b ∈ mem, b ∉ s.clusters))
  | .mFree i => inferInstanceAs (Decidable (s.chain i ≠ []))
  | .mFreem i => inferInstanceAs (Decidable (s.chain i ≠ []))
  | .mCopym i .. => inferInstanceAs (Decidable (s.chain i ≠ []))
  | .mPullup i _ _ mem => inferInstanceAs (Decidable (s.chain i ≠ [] ∧ ∀ b ∈ mem, b ∉ s.clusters))
  | .mAdj .. => isTrue trivial
  | .fill .. => isTrue trivial
  | .link i j => inferInstanceAs (Decidable (i ≠ j ∧ s.chain i ≠ []))
  | .cut .. => isTrue trivial

instance MbufCall.decidableNoWrap (s : MbufState κ) : ∀ c : MbufCall κ, Decidable (c.NoWrap s)
  | .mCopym i .. => inferInstanceAs (Decidable (∀ x ∈ shares (s.chain i), x.2 + 1 ≠ 0))
  | .mGet .. | .mGetCl .. | .mClgetNull .. | .mFree _ | .mFreem _ | .mPullup .. | .mAdj .. | .fill ..
  | .link .. | .cut .. => isTrue trivial

instance MbufCall.decidableOk (s : MbufState κ) : ∀ c : MbufCall κ, Decidable (c.Ok s)
  | .mGetCl _ _ mem cl => inferInstanceAs (Decidable (mem = true → cl ≠ none))
  | .mFree i => inferInstanceAs (Decidable
      (LastOk (shares ((s.chain i).take 1)) (shares ((s.chain i).drop 1) ++ s.otherShares i)))
  | .mFreem i => inferInstanceAs (Decidable (LastOk (shares (s.chain i)) (s.otherShares i)))
  | .mCopym i offset len mem => MCopymOk.decidable s i offset len mem
  | .mPullup i len mget mem => PullupOk.decidable (s.otherShares i) len mget mem (s.chain i)
  | .mGet .. | .mClgetNull .. | .mAdj .. | .fill .. | .link .. | .cut .. => isTrue trivial

/-- The clusters that are allocated are those that an mbuf refers to, and none was returned while an mbuf
still referred to it. -/
structure ClustersRight (s : MbufState κ) : Prop where
  referred : ∀ b, b ∈ s.clusters ↔ ∃ x ∈ s.allShares, x.1 = b
  last : ∀ r ∈ s.returned, r.2 = false

end

/-! ## Variables -/

section

variable {κ : Type*}

@[simp] theorem shares_nil : shares ([] : List (ClMbuf κ)) = [] := rfl

@[simp] theorem shares_append (c c' : List (ClMbuf κ)) : shares (c ++ c') = shares c ++ shares c' :=
  List.filterMap_append

theorem shares_cons (m : ClMbuf κ) (c : List (ClMbuf κ)) : shares (m :: c) = shares [m] ++ shares c :=
  shares_append [m] c

/-- What does not touch `m_ext` keeps the shares. -/
theorem shares_congr {c c' : List (ClMbuf κ)} (h : c.map ClMbuf.mExt = c'.map ClMbuf.mExt) :
    shares c = shares c' := by
  have hmap : ∀ l : List (ClMbuf κ), shares l = (l.map ClMbuf.mExt).filterMap id := by
    intro l
    rw [List.filterMap_map]
    rfl
  rw [hmap, hmap, h]

theorem flatten_set_perm {α : Type*} (l : List (List α)) (i : ℕ) (c : List α) (hi : i < l.length) :
    (l.set i c).flatten.Perm (c ++ (l.set i []).flatten) := by
  induction l generalizing i with
  | nil => exact absurd hi (Nat.not_lt_zero i)
  | cons d l ih =>
      cases i with
      | zero => exact List.Perm.refl _
      | succ i =>
          have hrest := ih i (Nat.lt_of_succ_lt_succ hi)
          simp only [List.set_cons_succ, List.flatten_cons]
          calc (d ++ (l.set i c).flatten).Perm (d ++ (c ++ (l.set i []).flatten)) := hrest.append_left d
            _ |>.Perm (c ++ (d ++ (l.set i []).flatten)) := by
                rw [← List.append_assoc, ← List.append_assoc]
                exact List.perm_append_comm.append_right _

namespace MbufState

variable (s : MbufState κ) {i j : ℕ} {c : List (ClMbuf κ)}

theorem lt_of_chain (h : s.chain i ≠ []) : i < s.chains.length := by
  by_contra hi
  rw [chain, List.getD_eq_default _ _ (not_lt.mp hi)] at h
  exact h rfl

theorem setChain_chain (i : ℕ) : s.setChain i (s.chain i) = s := by
  by_cases hi : i < s.chains.length
  · simp [setChain, chain, hi]
  · simp [setChain, List.set_eq_of_length_le (not_lt.mp hi)]

theorem chain_setChain (hi : i < s.chains.length) : (s.setChain i c).chain i = c := by
  simp [chain, setChain, hi]

theorem chain_setChain_ne (hij : i ≠ j) : (s.setChain i c).chain j = s.chain j := by
  simp [chain, setChain, List.getD_eq_getElem?_getD, List.getElem?_set_ne hij]

@[simp] theorem length_setChain : (s.setChain i c).chains.length = s.chains.length := List.length_set

@[simp] theorem length_push : (s.push c).chains.length = s.chains.length + 1 := List.length_append

theorem chain_push (hi : i = s.chains.length) : (s.push c).chain i = c := by
  subst hi
  simp [chain, push]

theorem chain_push_of_lt (hi : i < s.chains.length) : (s.push c).chain i = s.chain i := by
  simp [chain, push, List.getD_eq_getElem?_getD, List.getElem?_append_left hi]

theorem allShares_push : (s.push c).allShares = s.allShares ++ shares c := by
  simp [allShares, push]

/-- A new variable is behind all others. -/
theorem otherShares_push (hi : i = s.chains.length) : (s.push c).otherShares i = s.allShares := by
  subst hi
  simp [otherShares, setChain, push, allShares]

theorem otherShares_setChain : (s.setChain i c).otherShares i = s.otherShares i := by
  simp [otherShares, setChain, allShares]

theorem allShares_setChain (hi : i < s.chains.length) :
    (s.setChain i c).allShares.Perm (shares c ++ s.otherShares i) := by
  have hperm := (flatten_set_perm s.chains i c hi).filterMap ClMbuf.mExt
  rwa [List.filterMap_append] at hperm

theorem allShares_perm (i : ℕ) : s.allShares.Perm (shares (s.chain i) ++ s.otherShares i) := by
  by_cases hi : i < s.chains.length
  · have hself : s.setChain i (s.chain i) = s := by
      simp [setChain, chain, hi]
    have hperm := s.allShares_setChain (c := s.chain i) hi
    rwa [hself] at hperm
  · have hnone : s.chain i = [] := by
      by_contra h
      exact hi (s.lt_of_chain h)
    have hsame : s.setChain i [] = s := by
      simp [setChain, List.set_eq_of_length_le (not_lt.mp hi)]
    rw [hnone, otherShares, hsame]
    exact List.Perm.refl _

variable {s}

/-- The chains say everything about shares. -/
theorem chain_congr {t : MbufState κ} (h : t.chains = s.chains) (i : ℕ) : t.chain i = s.chain i := by
  rw [chain, h, chain]

theorem otherShares_congr {t : MbufState κ} (h : t.chains = s.chains) (i : ℕ) :
    t.otherShares i = s.otherShares i := by
  simp only [otherShares, allShares, setChain, h]

variable (s) {k : ℕ} {d : List (ClMbuf κ)}

theorem setChain_comm (hik : i ≠ k) : (s.setChain i c).setChain k d = (s.setChain k d).setChain i c := by
  simp only [setChain, List.set_comm c d hik]

theorem otherShares_perm (hik : i ≠ k) :
    (s.otherShares i).Perm (shares (s.chain k) ++ (s.setChain i []).otherShares k) := by
  have hperm := (s.setChain i []).allShares_perm k
  rwa [s.chain_setChain_ne hik] at hperm

theorem otherShares_setChain_ne (hik : i ≠ k) (hk : k < s.chains.length) :
    ((s.setChain k c).otherShares i).Perm (shares c ++ (s.setChain i []).otherShares k) := by
  rw [otherShares, s.setChain_comm hik.symm]
  exact (s.setChain i []).allShares_setChain ((length_setChain s).symm ▸ hk)

end MbufState

end

/-! ## Rules -/

section

variable {κ : Type*} [DecidableEq κ]

/-- The counters of all clusters, and what was returned so far. -/
structure CountInv (s : MbufState κ) : Prop where
  count : SplitCount s.clusters s.allShares
  last : ∀ r ∈ s.returned, r.2 = false

omit [DecidableEq κ] in
theorem ClustersRight.not_early {s : MbufState κ} (h : ClustersRight s) : ¬ ∃ r ∈ s.returned, r.2 = true := by
  rintro ⟨r, hr, htrue⟩
  exact absurd ((h.last r hr).symm.trans htrue) (by decide)

variable {s t : MbufState κ} {i k : ℕ} {m : ClMbuf κ} {next c : List (ClMbuf κ)}

theorem mFree_of_none (hc : s.chain i = m :: next) (hext : m.mExt = none) :
    mFree s i = some (s.setChain i next) := by
  simp only [mFree, hc, hext]

theorem mFree_of_some {x : Share κ} (hc : s.chain i = m :: next) (hext : m.mExt = some x) :
    mFree s i = if x.2 = 1 then (s.setChain i next).mclFree x.1 else some (s.setChain i next) := by
  simp only [mFree, hc, hext, sub_eq_zero]

/-- What is noted stays noted. -/
theorem returned_mFree (h : mFree s i = some t) : s.returned ⊆ t.returned := by
  rw [mFree] at h
  split at h
  · cases h
  · split at h
    · obtain rfl := Option.some.inj h
      exact List.Subset.refl _
    · split at h
      · rw [MbufState.mclFree] at h
        split at h
        · obtain rfl := Option.some.inj h
          exact List.subset_cons_self _ _
        · cases h
      · obtain rfl := Option.some.inj h
        exact List.Subset.refl _

theorem returned_mFreemLoop {n : ℕ} (h : mFreemLoop n s i = some t) : s.returned ⊆ t.returned := by
  induction n generalizing s with
  | zero =>
      obtain rfl := Option.some.inj h
      exact List.Subset.refl _
  | succ n ih =>
      have ⟨u, hu, ht⟩ := Option.bind_eq_some_iff.mp h
      exact List.Subset.trans (returned_mFree hu) (ih ht)

theorem returned_mFreem (h : mFreem s i = some t) : s.returned ⊆ t.returned := by
  rw [mFreem] at h
  split at h
  · cases h
  · exact returned_mFreemLoop h

namespace CountInv

variable (h : CountInv s)
include h

theorem right : ClustersRight s := ⟨fun _ => h.count.mem_iff, h.last⟩

/-- Only the shares count. -/
theorem of_perm (hclusters : t.clusters = s.clusters) (hreturned : t.returned = s.returned)
    (hperm : s.allShares.Perm t.allShares) : CountInv t :=
  ⟨hclusters ▸ h.count.perm hperm, hreturned ▸ h.last⟩

theorem push_nil : CountInv (s.push []) := by
  refine h.of_perm rfl rfl ?_
  rw [MbufState.allShares_push, shares_nil, List.append_nil]

theorem setChain (hc : (shares (s.chain i)).Perm (shares c)) : CountInv (s.setChain i c) := by
  by_cases hi : i < s.chains.length
  · refine h.of_perm rfl rfl ?_
    exact ((s.allShares_perm i).trans (hc.append_right _)).trans (s.allShares_setChain hi).symm
  · have hsame : s.setChain i c = s := by
      simp [MbufState.setChain, List.set_eq_of_length_le (not_lt.mp hi)]
    rw [hsame]
    exact h

/-- `m_free`. -/
theorem mFree (hc : s.chain i = m :: next) (hok : LastOk (shares [m]) (shares next ++ s.otherShares i)) :
    ∃ t, mFree s i = some t ∧ CountInv t ∧ t.chains = s.chains.set i next := by
  have hi : i < s.chains.length := s.lt_of_chain (by simp [hc])
  have hafter := s.allShares_setChain (c := next) hi
  have hbefore := s.allShares_perm i
  rw [hc, shares_cons, List.append_assoc] at hbefore
  cases hext : m.mExt with
  | none =>
      have hnone : shares [m] = [] := by simp [shares, hext]
      rw [hnone, List.nil_append] at hbefore
      rw [mFree_of_none hc hext]
      exact ⟨s.setChain i next, rfl, h.of_perm rfl rfl (hbefore.trans hafter.symm), rfl⟩
  | some x =>
      have hone : shares [m] = [x] := by simp [shares, hext]
      rw [hone] at hbefore hok
      have hlast : x.2 = 1 → ∀ y ∈ (s.setChain i next).allShares, y.1 ≠ x.1 := by
        intro hx y hy
        exact hok.1 hx y (hafter.mem_iff.mp hy)
      have hdrop : SplitCount (dropShare s.clusters x) (s.setChain i next).allShares :=
        ((h.count.perm hbefore).perm (hafter.symm.cons x)).drop hlast
      rw [dropShare] at hdrop
      rw [mFree_of_some hc hext]
      by_cases hx : x.2 = 1
      · have hmem : x.1 ∈ (s.setChain i next).clusters :=
          h.count.mem_iff.mpr ⟨x, hbefore.mem_iff.mpr List.mem_cons_self, rfl⟩
        rw [if_pos hx] at hdrop
        rw [if_pos hx, MbufState.mclFree, if_pos hmem]
        refine ⟨_, rfl, ⟨hdrop, ?_⟩, rfl⟩
        intro r hr
        rcases List.mem_cons.mp hr with rfl | hr
        · simpa using hlast hx
        · exact h.last r hr
      · rw [if_neg hx] at hdrop
        rw [if_neg hx]
        exact ⟨s.setChain i next, rfl, ⟨hdrop, h.last⟩, rfl⟩

omit h in
/-- `m_free` of an mbuf that counts 1 too early. -/
theorem mFree_early (hc : s.chain i = m :: next)
    (hok : ¬ LastOk (shares [m]) (shares next ++ s.otherShares i)) (ht : Net.mFree s i = some t) :
    ∃ r ∈ t.returned, r.2 = true := by
  have hi : i < s.chains.length := s.lt_of_chain (by simp [hc])
  have hafter := s.allShares_setChain (c := next) hi
  cases hext : m.mExt with
  | none =>
      have hnone : shares [m] = [] := by simp [shares, hext]
      rw [hnone] at hok
      exact absurd trivial hok
  | some x =>
      have hone : shares [m] = [x] := by simp [shares, hext]
      rw [hone] at hok
      simp only [LastOk, and_true, Classical.not_imp, not_forall, not_not, List.nil_append] at hok
      obtain ⟨hx, y, hy, hyx⟩ := hok
      rw [mFree_of_some hc hext, if_pos hx, MbufState.mclFree] at ht
      split at ht
      · obtain rfl := Option.some.inj ht
        refine ⟨_, List.mem_cons_self, ?_⟩
        exact List.any_eq_true.mpr ⟨y, hafter.mem_iff.mpr hy, decide_eq_true hyx⟩
      · cases ht

omit h [DecidableEq κ] in
theorem lastOk_cons {others : List (Share κ)} : LastOk (shares (m :: next)) others ↔
    LastOk (shares [m]) (shares next ++ others) ∧ LastOk (shares next) others := by
  cases hext : m.mExt with
  | none =>
      have hnone : shares [m] = [] := by simp [shares, hext]
      rw [shares_cons, hnone]
      exact ⟨fun hok => ⟨trivial, hok⟩, fun hok => hok.2⟩
  | some x =>
      have hone : shares [m] = [x] := by simp [shares, hext]
      rw [shares_cons, hone]
      exact ⟨fun hok => ⟨⟨hok.1, trivial⟩, hok.2⟩, fun hok => ⟨hok.1.1, hok.2⟩⟩

/-- `m_freem`, mbuf by mbuf. -/
theorem mFreemLoop (hc : s.chain i = c) (hok : LastOk (shares c) (s.otherShares i)) :
    ∃ t, mFreemLoop c.length s i = some t ∧ CountInv t ∧ t.chains = s.chains.set i [] := by
  induction c generalizing s with
  | nil =>
      refine ⟨s, rfl, h, ?_⟩
      have hself := congrArg MbufState.chains (s.setChain_chain i)
      rw [hc] at hself
      exact hself.symm
  | cons m next ih =>
      have hi : i < s.chains.length := s.lt_of_chain (by simp [hc])
      have ⟨hfirst, hrest⟩ := lastOk_cons.mp hok
      have ⟨u, hu, hinv, hchains⟩ := h.mFree hc hfirst
      have hnext : u.chain i = next :=
        (MbufState.chain_congr hchains i).trans (s.chain_setChain hi)
      have hothers : u.otherShares i = s.otherShares i :=
        (MbufState.otherShares_congr hchains i).trans s.otherShares_setChain
      have ⟨t, ht, hinv', hchains'⟩ := ih hinv hnext (hothers ▸ hrest)
      refine ⟨t, ?_, hinv', ?_⟩
      · rw [List.length_cons, Net.mFreemLoop, hu]
        exact ht
      · rw [hchains', hchains, List.set_set]

theorem mFreemLoop_early (hc : s.chain i = c) (hok : ¬ LastOk (shares c) (s.otherShares i))
    (ht : Net.mFreemLoop c.length s i = some t) : ∃ r ∈ t.returned, r.2 = true := by
  induction c generalizing s with
  | nil => exact absurd trivial hok
  | cons m next ih =>
      have hi : i < s.chains.length := s.lt_of_chain (by simp [hc])
      have ⟨u, hu, hrest⟩ := Option.bind_eq_some_iff.mp ht
      by_cases hfirst : LastOk (shares [m]) (shares next ++ s.otherShares i)
      · have ⟨u', hu', hinv, hchains⟩ := h.mFree hc hfirst
        obtain rfl : u = u' := Option.some.inj (hu.symm.trans hu')
        have hnext : u.chain i = next :=
          (MbufState.chain_congr hchains i).trans (s.chain_setChain hi)
        have hothers : u.otherShares i = s.otherShares i :=
          (MbufState.otherShares_congr hchains i).trans s.otherShares_setChain
        exact ih hinv hnext (fun hl => hok (lastOk_cons.mpr ⟨hfirst, hothers ▸ hl⟩)) hrest
      · have ⟨r, hr, htrue⟩ := mFree_early hc hfirst hu
        exact ⟨r, returned_mFreemLoop hrest hr, htrue⟩

theorem mFreem (hne : s.chain i ≠ []) (hok : LastOk (shares (s.chain i)) (s.otherShares i)) :
    ∃ t, mFreem s i = some t ∧ CountInv t ∧ t.chains = s.chains.set i [] := by
  rw [Net.mFreem, if_neg hne]
  exact h.mFreemLoop rfl hok

theorem mFreem_early (hok : ¬ LastOk (shares (s.chain i)) (s.otherShares i)) (ht : Net.mFreem s i = some t) :
    ∃ r ∈ t.returned, r.2 = true := by
  rw [Net.mFreem] at ht
  split at ht
  · cases ht
  · exact h.mFreemLoop_early rfl hok ht

/-! ### Copies -/

omit h [DecidableEq κ] in
theorem mGetptr_append {loc off : ℕ} {front rest : List (ClMbuf κ)}
    (heq : mGetptr loc c = some (front, rest, off)) : c = front ++ rest := by
  induction c generalizing loc front with
  | nil => cases heq
  | cons m next ih =>
      rw [mGetptr] at heq
      split_ifs at heq
      · obtain ⟨rfl, rfl, rfl⟩ := heq
        rfl
      · obtain ⟨rfl, rfl, rfl⟩ := heq
        rfl
      · have ⟨⟨front', rest', off'⟩, heq', hsome⟩ := Option.map_eq_some_iff.mp heq
        obtain ⟨rfl, rfl, rfl⟩ := hsome
        rw [ih heq', List.cons_append]

omit h [DecidableEq κ] in
theorem copy_mExt (offset len : ℕ) (copyhdr : Bool) : (m.copy offset len copyhdr).mExt = m.mExt := by
  rw [ClMbuf.copy]
  cases hext : m.mExt with
  | none => cases copyhdr <;> rfl
  | some x => cases copyhdr <;> rfl

section

variable {mem len offset : ℕ} {copyhdr : Bool}

omit h [DecidableEq κ] in
theorem mCopymLoop_nil : mCopymLoop mem len offset copyhdr ([] : List (ClMbuf κ)) = ([], [], false) := by
  cases mem <;> rfl

omit h [DecidableEq κ] in
theorem mCopymLoop_stop (hlen : len = 0) :
    mCopymLoop mem len offset copyhdr (m :: next) = (m :: next, [], false) := by
  cases mem <;> exact if_pos hlen

omit h [DecidableEq κ] in
theorem mCopymLoop_zero (hlen : len ≠ 0) :
    mCopymLoop 0 len offset copyhdr (m :: next) = (m :: next, [], true) := if_neg hlen

/-- What is left to copy behind an mbuf. -/
def copyRest (m : ClMbuf κ) (len offset : ℕ) : ℕ :=
  if len ≠ mCOPYALL then len - min len (m.mLen - offset) else len

omit h [DecidableEq κ] in
theorem copy_mLen (m : ClMbuf κ) (len offset : ℕ) (copyhdr : Bool) :
    (m.copy offset len copyhdr).mLen = min len (m.mLen - offset) := by
  rw [ClMbuf.copy]
  cases hext : m.mExt with
  | none => cases copyhdr <;> simp [ClMbuf.mLen]
  | some x => cases copyhdr <;> simp [ClMbuf.mLen]

omit h [DecidableEq κ] in
theorem mCopymLoop_succ (hlen : len ≠ 0) :
    mCopymLoop (mem + 1) len offset copyhdr (m :: next) =
      (m.incr :: (mCopymLoop mem (copyRest m len offset) 0 false next).1,
        m.copy offset len copyhdr :: (mCopymLoop mem (copyRest m len offset) 0 false next).2.1,
        (mCopymLoop mem (copyRest m len offset) 0 false next).2.2) := by
  rw [mCopymLoop, if_neg hlen, copyRest, ← copy_mLen m len offset copyhdr]

end

omit h in
/-- Every mbuf that is copied counts one more, and its copy counts what it did. -/
theorem mCopymLoop_count {C : Finset κ} {o : List (Share κ)} (mem len offset : ℕ) (copyhdr : Bool)
    (hcount : SplitCount C (shares c ++ o)) (hwrap : ∀ x ∈ shares c, x.2 + 1 ≠ 0) :
    SplitCount C (shares (mCopymLoop mem len offset copyhdr c).1 ++
      (shares (mCopymLoop mem len offset copyhdr c).2.1 ++ o)) := by
  induction c generalizing mem len offset copyhdr o with
  | nil =>
      rw [mCopymLoop_nil]
      exact hcount
  | cons m next ih =>
      by_cases hlen : len = 0
      · rw [mCopymLoop_stop hlen]
        exact hcount
      cases mem with
      | zero =>
          rw [mCopymLoop_zero hlen]
          exact hcount
      | succ mem =>
          rw [mCopymLoop_succ hlen]
          dsimp only
          have hnext : ∀ x ∈ shares next, x.2 + 1 ≠ 0 := by
            intro x hx
            rw [shares_cons] at hwrap
            exact hwrap x (List.mem_append_right _ hx)
          rw [shares_cons (ClMbuf.incr m), shares_cons (m.copy offset len copyhdr)]
          cases hext : m.mExt with
          | none =>
              have hm : shares [m] = [] := by simp [shares, hext]
              have hincr : shares [m.incr] = [] := by simp [shares, ClMbuf.incr, hext]
              have hcopy : shares [m.copy offset len copyhdr] = [] := by simp [shares, copy_mExt, hext]
              rw [hincr, hcopy, List.nil_append, List.nil_append]
              rw [shares_cons, hm, List.nil_append] at hcount
              exact ih mem (copyRest m len offset) 0 false hcount hnext
          | some x =>
              have hm : shares [m] = [x] := by simp [shares, hext]
              have hincr : shares [m.incr] = [(x.1, x.2 + 1)] := by simp [shares, ClMbuf.incr, hext]
              have hcopy : shares [m.copy offset len copyhdr] = [x] := by simp [shares, copy_mExt, hext]
              rw [shares_cons, hm] at hcount hwrap
              have hcopied := hcount.copy (hwrap x List.mem_cons_self)
              have hmove : ((x.1, x.2 + 1) :: x :: (shares next ++ o)).Perm
                  (shares next ++ ((x.1, x.2 + 1) :: x :: o)) := by
                rw [List.perm_iff_count]
                intro y
                simp only [List.count_append, List.count_cons]
                omega
              have hrest := ih mem (copyRest m len offset) 0 false (hcopied.perm hmove) hnext
              rw [hincr, hcopy]
              refine hrest.perm ?_
              rw [List.perm_iff_count]
              intro y
              simp only [List.count_append, List.count_cons, List.count_nil]
              omega

omit h [DecidableEq κ] in
/-- The copies have the counters of the mbufs that were copied, which still refer to the clusters. -/
theorem mCopymLoop_top (mem len offset : ℕ) (copyhdr : Bool) :
    ((mCopymLoop mem len offset copyhdr c).2.2 = true ↔ mem < mCopymNeeds len offset c) ∧
    ((mCopymLoop mem len offset copyhdr c).2.2 = true →
      (mCopymLoop mem len offset copyhdr c).2.1.map ClMbuf.mExt = (c.take mem).map ClMbuf.mExt ∧
      (mCopymLoop mem len offset copyhdr c).2.1.length = mem) ∧
    ∀ x ∈ shares (mCopymLoop mem len offset copyhdr c).2.1,
      ∃ y ∈ shares (mCopymLoop mem len offset copyhdr c).1, y.1 = x.1 := by
  induction c generalizing mem len offset copyhdr with
  | nil =>
      rw [mCopymLoop_nil]
      simp [mCopymNeeds]
  | cons m next ih =>
      by_cases hlen : len = 0
      · rw [mCopymLoop_stop hlen]
        simp [mCopymNeeds, hlen]
      cases mem with
      | zero =>
          rw [mCopymLoop_zero hlen]
          simp [mCopymNeeds, hlen]
      | succ mem =>
          rw [mCopymLoop_succ hlen]
          have ⟨hfailed, htop, hsame⟩ := ih mem (copyRest m len offset) 0 false
          refine ⟨?_, ?_, ?_⟩
          · rw [mCopymNeeds, if_neg hlen]
            dsimp only
            rw [hfailed, copyRest]
            omega
          · intro hf
            have ⟨hmap, hlength⟩ := htop hf
            dsimp only
            rw [List.map_cons, List.take_succ_cons, List.map_cons, copy_mExt, hmap, List.length_cons, hlength]
            exact ⟨rfl, rfl⟩
          · intro x hx
            rw [shares_cons] at hx ⊢
            rcases List.mem_append.mp hx with hx | hx
            · have hext : m.mExt = some x := by simpa [shares, copy_mExt] using hx
              refine ⟨(x.1, x.2 + 1), List.mem_append_left _ ?_, rfl⟩
              simp [shares, ClMbuf.incr, hext]
            · have ⟨y, hy, hyx⟩ := hsame x hx
              exact ⟨y, List.mem_append_right _ hy, hyx⟩

/-- The state in which `_m_copym` leaves its loop. -/
theorem mCopym_loop {front rest : List (ClMbuf κ)} (hi : s.chain i ≠ []) (hchain : s.chain i = front ++ rest)
    (hwrap : ∀ x ∈ shares (s.chain i), x.2 + 1 ≠ 0) (mem len offset : ℕ) (copyhdr : Bool) :
    CountInv ((s.setChain i (front ++ (mCopymLoop mem len offset copyhdr rest).1)).push
      (mCopymLoop mem len offset copyhdr rest).2.1) := by
  have hbefore := s.allShares_perm i
  rw [hchain, shares_append] at hbefore hwrap
  have hfront : ((shares front ++ shares rest) ++ s.otherShares i).Perm
      (shares rest ++ (shares front ++ s.otherShares i)) := by
    rw [← List.append_assoc]
    exact List.perm_append_comm.append_right _
  have hloop := mCopymLoop_count mem len offset copyhdr (h.count.perm (hbefore.trans hfront))
    fun x hx => hwrap x (List.mem_append_right _ hx)
  refine ⟨hloop.perm ?_, h.last⟩
  have hafter := s.allShares_setChain (c := front ++ (mCopymLoop mem len offset copyhdr rest).1)
    (s.lt_of_chain hi)
  rw [MbufState.allShares_push]
  refine List.Perm.trans ?_ (hafter.append_right _).symm
  rw [List.perm_iff_count]
  intro y
  simp only [shares_append, List.count_append]
  omega

/-- `m_copym`. -/
theorem mCopym {offset len : ℤ} {mem : ℕ} (hi : s.chain i ≠ [])
    (hwrap : ∀ x ∈ shares (s.chain i), x.2 + 1 ≠ 0) (hok : MCopymOk s i offset len mem) :
    ∃ t, mCopym s i offset len mem = some t ∧ CountInv t := by
  by_cases hneg : offset < 0 ∨ len < 0
  · exact ⟨s.push [], if_pos hneg, h.push_nil⟩
  rw [Net.mCopym, if_neg hneg]
  cases hptr : mGetptr offset.toNat (s.chain i) with
  | none => exact ⟨s.push [], rfl, h.push_nil⟩
  | some r =>
      obtain ⟨front, rest, off⟩ := r
      have ⟨hoff, hlen⟩ := not_or.mp hneg
      have ⟨hhdr, hmem⟩ := hok (not_lt.mp hoff) (not_lt.mp hlen) _ hptr
      dsimp only at hhdr hmem ⊢
      set copyhdr := decide (offset = 0) && ((s.chain i).head?.bind ClMbuf.mPkthdr).isSome with hcopyhdr
      have hassert : ¬ (copyhdr ∧ 0 < len ∧ 0 < mem ∧ rest.head?.bind ClMbuf.mPkthdr = none) := by
        rintro ⟨hc, hl, hm, hn⟩
        rw [hcopyhdr, Bool.and_eq_true, decide_eq_true_eq] at hc
        exact hhdr hc.1 hc.2 hl hm hn
      rw [if_neg hassert]
      have hinv := h.mCopym_loop hi (mGetptr_append hptr) hwrap mem len.toNat off copyhdr
      have ⟨hfailed, htop, _⟩ := mCopymLoop_top (c := rest) mem len.toNat off copyhdr
      split_ifs with hf
      · have ⟨hpos, hcounts⟩ := hmem (hfailed.mp hf)
        have ⟨hmap, hlength⟩ := htop hf
        set t := (s.setChain i (front ++ (mCopymLoop mem len.toNat off copyhdr rest).1)).push
          (mCopymLoop mem len.toNat off copyhdr rest).2.1 with ht
        have hk : t.chain s.chains.length = (mCopymLoop mem len.toNat off copyhdr rest).2.1 :=
          MbufState.chain_push _ (MbufState.length_setChain s).symm
        have hne : t.chain s.chains.length ≠ [] := by
          rw [hk]
          intro hnil
          rw [hnil] at hlength
          exact hpos.ne hlength
        have hlast : LastOk (shares (t.chain s.chains.length)) (t.otherShares s.chains.length) := by
          rw [hk, shares_congr hmap]
          exact lastOk_of_ne_one hcounts
        have ⟨u, hu, hinv', _⟩ := hinv.mFreem hne hlast
        exact ⟨u, hu, hinv'⟩
      · exact ⟨_, rfl, hinv⟩

theorem mCopym_early {offset len : ℤ} {mem : ℕ} (hi : s.chain i ≠ [])
    (hwrap : ∀ x ∈ shares (s.chain i), x.2 + 1 ≠ 0) (hok : ¬ MCopymOk s i offset len mem)
    (ht : Net.mCopym s i offset len mem = some t) : ∃ r ∈ t.returned, r.2 = true := by
  simp only [MCopymOk, Classical.not_imp, not_forall] at hok
  obtain ⟨hoff, hlen, ⟨front, rest, off⟩, hptr, hbad⟩ := hok
  have hneg : ¬ (offset < 0 ∨ len < 0) := not_or.mpr ⟨not_lt.mpr hoff, not_lt.mpr hlen⟩
  rw [Net.mCopym, if_neg hneg, hptr] at ht
  dsimp only at hbad ht
  set copyhdr := decide (offset = 0) && ((s.chain i).head?.bind ClMbuf.mPkthdr).isSome with hcopyhdr
  split_ifs at ht with hassert hf
  · have hinv := h.mCopym_loop hi (mGetptr_append hptr) hwrap mem len.toNat off copyhdr
    have ⟨hfailed, htop, hsame⟩ := mCopymLoop_top (c := rest) mem len.toNat off copyhdr
    have ⟨hmap, hlength⟩ := htop hf
    set u := s.setChain i (front ++ (mCopymLoop mem len.toNat off copyhdr rest).1) with hu
    have hk : (u.push (mCopymLoop mem len.toNat off copyhdr rest).2.1).chain s.chains.length =
        (mCopymLoop mem len.toNat off copyhdr rest).2.1 :=
      MbufState.chain_push _ (MbufState.length_setChain s).symm
    have hothers : (u.push (mCopymLoop mem len.toNat off copyhdr rest).2.1).otherShares s.chains.length =
        u.allShares := MbufState.otherShares_push _ (MbufState.length_setChain s).symm
    refine hinv.mFreem_early ?_ ht
    rw [hk, hothers, shares_congr hmap]
    intro hlast
    have hneeds := hfailed.mp hf
    refine hbad ⟨?_, fun _ => ⟨?_, ?_⟩⟩
    · intro h0 hsome hlen' hmem hnone
      refine hassert ⟨?_, hlen', hmem, hnone⟩
      rw [hcopyhdr, hsome, Bool.and_true, decide_eq_true h0]
    · by_contra hzero
      have hnil := List.eq_nil_of_length_eq_zero (hlength.trans (Nat.eq_zero_of_not_pos hzero))
      rw [Net.mFreem, hk, if_pos hnil] at ht
      cases ht
    · intro x hx hone
      have ⟨y, hy, hyx⟩ := hsame x ((shares_congr hmap).symm ▸ hx)
      refine hlast.others hx hone y ?_ hyx
      have hafter := s.allShares_setChain (c := front ++ (mCopymLoop mem len.toNat off copyhdr rest).1)
        (s.lt_of_chain hi)
      refine hafter.mem_iff.mpr (List.mem_append_left _ ?_)
      rw [shares_append]
      exact List.mem_append_right _ hy
  · have ⟨hfailed, _⟩ := mCopymLoop_top (c := rest) mem len.toNat off copyhdr
    refine absurd ⟨?_, fun hneeds => absurd (hfailed.mpr hneeds) hf⟩ hbad
    intro h0 hsome hlen' hmem hnone
    refine hassert ⟨?_, hlen', hmem, hnone⟩
    rw [hcopyhdr, hsome, Bool.and_true, decide_eq_true h0]

/-! ### Pulling up -/

/-- Mbufs go from one variable to another. -/
theorem move {d : List (ClMbuf κ)} (hik : i ≠ k) (hi : i < s.chains.length) (hk : k < s.chains.length)
    (hperm : (shares (s.chain i) ++ shares (s.chain k)).Perm (shares c ++ shares d)) :
    CountInv ((s.setChain i c).setChain k d) := by
  refine h.of_perm rfl rfl ?_
  have hafter := (s.setChain i c).allShares_setChain (c := d) ((MbufState.length_setChain s).symm ▸ hk)
  have hc := s.otherShares_setChain_ne (c := c) hik.symm hi
  have hbefore := (s.allShares_perm k).trans ((s.otherShares_perm hik.symm).append_left _)
  refine hbefore.trans (List.Perm.trans ?_ (hafter.trans (hc.append_left _)).symm)
  rw [← List.append_assoc, ← List.append_assoc]
  refine List.Perm.append_right _ ?_
  exact (List.perm_append_comm.trans hperm).trans List.perm_append_comm

variable {n : ClMbuf κ} {len : ℕ} {inPlace : Bool}

omit h in
/-- What `m_pullup` does once it has the mbuf to pull up into. -/
theorem mPullupInto_eq (hi : s.chain i = n :: next) (hk : s.chain k = [m]) (len : ℕ) (inPlace : Bool) :
    ∃ m' n' : ClMbuf κ, m'.mExt = m.mExt ∧ n'.mExt = n.mExt ∧ mPullupInto s i k len inPlace =
      (if len < n.mLen then some ((s.setChain k [m']).setChain i (n' :: next))
        else Net.mFreem ((s.setChain k [m']).setChain i (n' :: next)) i).bind fun t =>
      if n.mLen < len then if inPlace then none else Net.mFreem t k
      else some ((t.setChain i (m' :: t.chain i)).setChain k []) := by
  have hmore : 0 < len - min len n.mLen ↔ n.mLen < len := by omega
  have hleft : (n.bytes.drop (min len n.mLen)).length ≠ 0 ↔ len < n.mLen := by
    rw [List.length_drop, ← ClMbuf.mLen]
    omega
  by_cases hlt : len < n.mLen
  · refine ⟨{ m with bytes := m.bytes ++ n.bytes.take (min len n.mLen) },
      { n with mData := n.mData + min len n.mLen, bytes := n.bytes.drop (min len n.mLen) }, rfl, rfl, ?_⟩
    have hn : ClMbuf.mLen { n with bytes := n.bytes.drop (min len n.mLen) } ≠ 0 := hleft.mpr hlt
    simp only [mPullupInto, hi, hk, if_pos hn, if_pos hlt, hmore]
  · refine ⟨{ m with bytes := m.bytes ++ n.bytes.take (min len n.mLen) },
      { n with bytes := n.bytes.drop (min len n.mLen) }, rfl, rfl, ?_⟩
    have hn : ¬ ClMbuf.mLen { n with bytes := n.bytes.drop (min len n.mLen) } ≠ 0 := fun hn =>
      hlt (hleft.mp hn)
    simp only [mPullupInto, hi, hk, if_neg hn, if_neg hlt, hmore]

omit h [DecidableEq κ] in
theorem shares_head {n' : ClMbuf κ} (hext : n'.mExt = n.mExt) : shares (n' :: next) = shares (n :: next) :=
  shares_congr (by rw [List.map_cons, List.map_cons, hext])

section

variable (hik : i ≠ k) (hi : s.chain i = n :: next) (hk : s.chain k = [m])
include hik hi hk

/-- The state in which the bytes are pulled up. -/
theorem pulled {m' n' : ClMbuf κ} (hm : m'.mExt = m.mExt) (hn : n'.mExt = n.mExt) :
    CountInv ((s.setChain k [m']).setChain i (n' :: next)) ∧
    ((s.setChain k [m']).setChain i (n' :: next)).chain i = n' :: next ∧
    ((s.setChain k [m']).setChain i (n' :: next)).chain k = [m'] ∧
    ∀ y, y ∈ ((s.setChain k [m']).setChain i (n' :: next)).otherShares i ↔ y ∈ s.otherShares i := by
  have hilt : i < s.chains.length := s.lt_of_chain (by simp [hi])
  have hklt : k < s.chains.length := s.lt_of_chain (by simp [hk])
  have hm' : shares [m'] = shares (s.chain k) := by rw [shares_head hm, hk]
  have hn' : shares (n' :: next) = shares (s.chain i) := by rw [shares_head hn, hi]
  refine ⟨?_, ?_, ?_, ?_⟩
  · have hfirst := h.setChain (i := k) (c := [m']) (List.Perm.of_eq hm'.symm)
    refine hfirst.setChain (List.Perm.of_eq ?_)
    rw [s.chain_setChain_ne hik.symm, hn']
  · exact MbufState.chain_setChain _ ((MbufState.length_setChain s).symm ▸ hilt)
  · rw [MbufState.chain_setChain_ne _ hik, s.chain_setChain hklt]
  · intro y
    rw [MbufState.otherShares_setChain]
    have hafter := s.otherShares_setChain_ne (c := [m']) hik hklt
    rw [hm'] at hafter
    exact (hafter.trans (s.otherShares_perm hik).symm).mem_iff

end

/-- What is left of the second chain is put behind the mbuf. -/
theorem joined (hik : i ≠ k) (hi : i < s.chains.length) (hk : s.chain k = [m]) :
    CountInv ((s.setChain i (m :: s.chain i)).setChain k []) := by
  refine h.move hik hi (s.lt_of_chain (by simp [hk])) ?_
  rw [hk, shares_nil, List.append_nil, shares_cons m (s.chain i)]
  exact List.perm_append_comm

theorem mPullupInto (hik : i ≠ k) (hi : s.chain i = n :: next) (hk : s.chain k = [m])
    (hlast : n.mLen ≤ len → LastOk (shares (n :: next)) (s.otherShares i))
    (hmore : n.mLen < len → inPlace = false ∧ LastOk (shares [m]) ((s.setChain i []).otherShares k)) :
    ∃ t, mPullupInto s i k len inPlace = some t ∧ CountInv t := by
  have hilt : i < s.chains.length := s.lt_of_chain (by simp [hi])
  have ⟨m', n', hm, hn, heq⟩ := mPullupInto_eq hi hk len inPlace
  have ⟨hinv, hwi, hwk, hwothers⟩ := h.pulled hik hi hk hm hn
  rw [heq]
  set w := (s.setChain k [m']).setChain i (n' :: next) with hw
  have hwlen : i < w.chains.length := by
    rw [hw, MbufState.length_setChain, MbufState.length_setChain]
    exact hilt
  by_cases hlt : len < n.mLen
  · rw [if_pos hlt, Option.bind_some, if_neg hlt.le.not_gt]
    exact ⟨_, rfl, hinv.joined hik hwlen hwk⟩
  rw [if_neg hlt]
  have hfree : LastOk (shares (w.chain i)) (w.otherShares i) := by
    rw [hwi, shares_head hn]
    exact (lastOk_congr hwothers).mpr (hlast (not_lt.mp hlt))
  have ⟨t, ht, hinv', hchains⟩ := hinv.mFreem (by simp [hwi]) hfree
  have htk : t.chain k = [m'] := by
    have hchain := MbufState.chain_congr (s := w.setChain i []) hchains k
    rw [hchain, w.chain_setChain_ne hik, hwk]
  have htlen : i < t.chains.length := by
    rw [hchains, List.length_set]
    exact hwlen
  rw [ht, Option.bind_some]
  split_ifs with hless hplace
  · exact absurd hplace (by simp [(hmore hless).1])
  · have hothers : t.otherShares k = (s.setChain i []).otherShares k := by
      have hsame : t.chains = ((s.setChain i []).setChain k [m']).chains := by
        rw [hchains, ← s.setChain_comm hik.symm]
        exact List.set_set ..
      rw [MbufState.otherShares_congr hsame, MbufState.otherShares_setChain]
    have hfree' : LastOk (shares (t.chain k)) (t.otherShares k) := by
      rw [htk, hothers, shares_head hm]
      exact (hmore hless).2
    have ⟨u, hu, hinv'', _⟩ := hinv'.mFreem (by simp [htk]) hfree'
    exact ⟨u, hu, hinv''⟩
  · exact ⟨_, rfl, hinv'.joined hik htlen htk⟩

theorem mPullupInto_early (hik : i ≠ k) (hi : s.chain i = n :: next) (hk : s.chain k = [m])
    (hlen : n.mLen ≤ len) (hlast : ¬ LastOk (shares (n :: next)) (s.otherShares i))
    (ht : Net.mPullupInto s i k len inPlace = some t) : ∃ r ∈ t.returned, r.2 = true := by
  have ⟨m', n', hm, hn, heq⟩ := mPullupInto_eq hi hk len inPlace
  have ⟨hinv, hwi, hwk, hwothers⟩ := h.pulled hik hi hk hm hn
  rw [heq, if_neg hlen.not_gt] at ht
  have ⟨u, hu, hrest⟩ := Option.bind_eq_some_iff.mp ht
  have hfree : ¬ LastOk (shares (((s.setChain k [m']).setChain i (n' :: next)).chain i))
      (((s.setChain k [m']).setChain i (n' :: next)).otherShares i) := by
    rw [hwi, shares_head hn]
    exact fun hl => hlast ((lastOk_congr hwothers).mp hl)
  have ⟨r, hr, htrue⟩ := hinv.mFreem_early hfree hu
  refine ⟨r, ?_, htrue⟩
  split_ifs at hrest
  · exact returned_mFreem hrest hr
  · obtain rfl := Option.some.inj hrest
    exact hr

omit h in
/-- The mbuf at the front is kept, and its `m_next` is freed. -/
theorem mPullupInto_none (hi : s.chain i = n :: next) (hk : s.chain k = [m]) (hlen : n.mLen < len) :
    Net.mPullupInto s i k len true = none := by
  have ⟨m', n', hm, hn, heq⟩ := mPullupInto_eq hi hk len true
  rw [heq, if_neg hlen.le.not_gt]
  simp [hlen]

/-- `m_clget` of an mbuf without a cluster. -/
theorem mClget {b : κ} (hc : s.chain i = m :: next) (hext : m.mExt = none) (hb : b ∉ s.clusters) :
    ∃ t, mClget s i (some b) = some t ∧ CountInv t ∧ t.chains = s.chains.set i (m.clget b :: next) ∧
      t.returned = s.returned := by
  refine ⟨{ s.setChain i (m.clget b :: next) with clusters := insert b s.clusters }, ?_, ⟨?_, h.last⟩, rfl,
    rfl⟩
  · simp only [Net.mClget, hc]
  have hilt : i < s.chains.length := s.lt_of_chain (by simp [hc])
  have hafter := s.allShares_setChain (c := m.clget b :: next) hilt
  have hnone : shares [m] = [] := by simp [shares, hext]
  have hbefore := s.allShares_perm i
  rw [hc, shares_cons, hnone, List.nil_append] at hbefore
  refine (h.count.alloc hb).perm (List.Perm.trans ?_ hafter.symm)
  rw [shares_cons]
  exact hbefore.cons (b, 1)

/-- A new mbuf without a cluster. -/
theorem push_one (hext : m.mExt = none) : CountInv (s.push [m]) := by
  refine h.of_perm rfl rfl ?_
  have hnone : shares [m] = [] := by simp [shares, hext]
  rw [MbufState.allShares_push, hnone, List.append_nil]

/-- The mbuf that `m_pullup` allocates, in its variable. -/
theorem pullup_alloc {mem : Option κ} (hi : s.chain i = n :: next) (hmem : mHLEN < len → mem ≠ none)
    (hfresh : ∀ b ∈ mem, b ∉ s.clusters) :
    ∃ t m, (if mHLEN < len then Net.mClget (s.push [mGetInit n.mType]) s.chains.length mem
        else some (s.push [mGetInit n.mType])) = some t ∧ CountInv t ∧ t.chain i = n :: next ∧
      t.chain s.chains.length = [m] ∧ t.returned = s.returned ∧ s.chains.length < t.chains.length ∧
      (t.setChain i []).otherShares s.chains.length = s.otherShares i ∧
      ∀ y ∈ shares [m], ∀ x ∈ s.allShares, x.1 ≠ y.1 := by
  have hilt : i < s.chains.length := s.lt_of_chain (by simp [hi])
  have hpush := h.push_one (m := mGetInit n.mType) rfl
  have hk := s.chain_push (c := [mGetInit n.mType]) rfl
  set u := s.push [mGetInit n.mType] with hu
  have hklt : s.chains.length < u.chains.length := by
    rw [hu, MbufState.length_push]
    exact Nat.lt_succ_self _
  have hui : u.chain i = n :: next := (s.chain_push_of_lt hilt).trans hi
  have hothers : (u.setChain i []).otherShares s.chains.length = s.otherShares i := by
    have hset : u.setChain i [] = (s.setChain i []).push [mGetInit n.mType] := by
      simp [hu, MbufState.setChain, MbufState.push, List.set_append_left _ _ hilt]
    rw [hset]
    exact MbufState.otherShares_push _ (MbufState.length_setChain s).symm
  split_ifs with hlen
  · have ⟨b, hb⟩ := Option.ne_none_iff_exists'.mp (hmem hlen)
    subst hb
    have hbnot := hfresh b rfl
    have ⟨t, ht, hinv, hchains, hreturned⟩ := hpush.mClget hk rfl hbnot
    have hsame : t.chains = (u.setChain s.chains.length [(mGetInit n.mType : ClMbuf κ).clget b]).chains :=
      hchains
    refine ⟨t, (mGetInit n.mType).clget b, ht, hinv, ?_, ?_, hreturned, ?_, ?_, ?_⟩
    · rw [MbufState.chain_congr hsame, MbufState.chain_setChain_ne _ hilt.ne', hui]
    · rw [MbufState.chain_congr hsame, MbufState.chain_setChain _ hklt]
    · rw [hsame, MbufState.length_setChain]
      exact hklt
    · have hset : (t.setChain i []).chains = ((u.setChain i []).setChain s.chains.length
          [(mGetInit n.mType : ClMbuf κ).clget b]).chains := by
        rw [u.setChain_comm hilt.ne, MbufState.setChain, hsame]
        rfl
      rw [MbufState.otherShares_congr hset, MbufState.otherShares_setChain, hothers]
    · intro y hy x hx hxy
      have hyb : y = (b, 0 + 1) := by simpa [shares, ClMbuf.clget] using hy
      refine hbnot (h.count.mem_iff.mpr ⟨x, hx, ?_⟩)
      rw [hxy, hyb]
  · refine ⟨u, mGetInit n.mType, rfl, hpush, hui, hk, rfl, hklt, hothers, ?_⟩
    intro y hy
    cases hy

omit h in
/-- The header goes to the new mbuf. -/
theorem mPullupNew_eq {mem : Option κ} {t : MbufState κ} (hik : i ≠ k) (hti : t.chain i = n :: next)
    (htk : t.chain k = [m]) (hinv : CountInv t)
    (ht : (if mHLEN < len then Net.mClget (s.push [mGetInit n.mType]) k mem
      else some (s.push [mGetInit n.mType])) = some t) :
    ∃ u m' n', m'.mExt = m.mExt ∧ n'.mExt = n.mExt ∧ n'.mLen = n.mLen ∧ CountInv u ∧ u.chain i = n' :: next ∧
      u.chain k = [m'] ∧ (∀ y, y ∈ u.otherShares i ↔ y ∈ t.otherShares i) ∧
      ((u.setChain i []).otherShares k) = ((t.setChain i []).otherShares k) ∧
      Net.mPullupNew s i k len n next mem = Net.mPullupInto u i k len false := by
  rw [mPullupNew, ht, Option.bind_some]
  cases hhdr : n.mPkthdr with
  | none => exact ⟨t, m, n, rfl, rfl, rfl, hinv, hti, htk, fun _ => Iff.rfl, rfl, rfl⟩
  | some l =>
      have hm : (mMovePkthdr m n).mExt = m.mExt := rfl
      have hn : ClMbuf.mExt { n with mPkthdr := none } = n.mExt := rfl
      have ⟨hu, hui, huk, huo⟩ := hinv.pulled hik hti htk hm hn
      refine ⟨_, mMovePkthdr m n, { n with mPkthdr := none }, rfl, rfl, rfl, hu, hui, huk, huo, ?_, ?_⟩
      · have hset : (((t.setChain k [mMovePkthdr m n]).setChain i
            ({ n with mPkthdr := none } :: next)).setChain i []) =
            (t.setChain i []).setChain k [mMovePkthdr m n] := by
          rw [t.setChain_comm hik]
          simp [MbufState.setChain]
        rw [hset, MbufState.otherShares_setChain]
      · rw [htk]
        rfl

section

variable {mem : Option κ} (hi : s.chain i = n :: next) (hfresh : ∀ b ∈ mem, b ∉ s.clusters)
include hi hfresh

theorem mPullupNew (hmem : mHLEN < len → mem ≠ none)
    (hlast : n.mLen ≤ len → LastOk (shares (n :: next)) (s.otherShares i)) :
    ∃ t, mPullupNew s i s.chains.length len n next mem = some t ∧ CountInv t := by
  have hilt : i < s.chains.length := s.lt_of_chain (by simp [hi])
  have hall := s.allShares_perm i
  rw [hi] at hall
  have ⟨t, m, ht, hinv, hti, htk, _, _, hothers, hnew⟩ := h.pullup_alloc hi hmem hfresh
  have ⟨u, m', n', hm, hn, hlen, hu, hui, huk, huo, huk', heq⟩ := mPullupNew_eq hilt.ne hti htk hinv ht
  rw [heq]
  refine hu.mPullupInto hilt.ne hui huk ?_ ?_
  · intro hle
    rw [shares_head hn]
    refine (hlast (hlen ▸ hle)).congr fun y hy => ?_
    have hperm := t.otherShares_perm hilt.ne
    rw [htk, hothers] at hperm
    rcases List.mem_append.mp (hperm.mem_iff.mp ((huo y).mp hy)) with hy | hy
    · exact .inr fun x hx hyx => hnew y hy x (hall.mem_iff.mpr (List.mem_append_left _ hx)) hyx.symm
    · exact .inl hy
  · intro _
    refine ⟨rfl, ?_⟩
    rw [shares_head hm, huk', hothers]
    cases hext : m.mExt with
    | none => simp [shares, hext, LastOk]
    | some x =>
        have hone : shares [m] = [x] := by simp [shares, hext]
        rw [hone] at hnew ⊢
        refine ⟨fun _ y hy => ?_, trivial⟩
        exact hnew x List.mem_cons_self y (hall.mem_iff.mpr (List.mem_append_right _ hy))

theorem mPullupNew_early
    (hok : ¬ ((mHLEN < len → mem ≠ none) ∧ (n.mLen ≤ len → LastOk (shares (n :: next)) (s.otherShares i))))
    (ht : Net.mPullupNew s i s.chains.length len n next mem = some t) : ∃ r ∈ t.returned, r.2 = true := by
  have hilt : i < s.chains.length := s.lt_of_chain (by simp [hi])
  by_cases hmem : mHLEN < len → mem ≠ none
  · have ⟨hle, hlast⟩ := Classical.not_imp.mp (not_and.mp hok hmem)
    have ⟨v, m, hv, hinv, hvi, hvk, _, _, hothers, _⟩ := h.pullup_alloc hi hmem hfresh
    have ⟨u, m', n', hm, hn, hlen, hu, hui, huk, huo, _, heq⟩ := mPullupNew_eq hilt.ne hvi hvk hinv hv
    rw [heq] at ht
    refine hu.mPullupInto_early hilt.ne hui huk (hlen.trans_le hle) ?_ ht
    rw [shares_head hn]
    refine fun hl => hlast (hl.congr fun y hy => .inl ((huo y).mpr ?_))
    have hperm := v.otherShares_perm hilt.ne
    rw [hvk, hothers] at hperm
    exact hperm.mem_iff.mpr (List.mem_append_right _ hy)
  · -- there is no cluster
    simp only [Classical.not_imp, not_not] at hmem
    obtain ⟨hlen, rfl⟩ := hmem
    rw [Net.mPullupNew, if_pos hlen] at ht
    simp [Net.mClget] at ht

end

/-- The mbuf at the front in a variable of its own. -/
theorem pullup_front (hi : s.chain i = n :: next) :
    CountInv ((s.setChain i next).push [n]) ∧ ((s.setChain i next).push [n]).chain i = next ∧
    ((s.setChain i next).push [n]).chain s.chains.length = [n] ∧
    ∀ y, y ∈ ((s.setChain i next).push [n]).otherShares i ↔ y ∈ shares [n] ++ s.otherShares i := by
  have hilt : i < s.chains.length := s.lt_of_chain (by simp [hi])
  have hlen : s.chains.length = (s.setChain i next).chains.length := (MbufState.length_setChain s).symm
  have hafter := s.allShares_setChain (c := next) hilt
  have hbefore := s.allShares_perm i
  rw [hi, shares_cons] at hbefore
  have hk : ((s.setChain i next).push [n]).chain s.chains.length = [n] := MbufState.chain_push _ hlen
  refine ⟨?_, ?_, hk, ?_⟩
  · refine h.of_perm rfl rfl (hbefore.trans ?_)
    rw [MbufState.allShares_push, List.append_assoc]
    exact List.perm_append_comm.trans (hafter.symm.append_right _)
  · rw [MbufState.chain_push_of_lt _ (hlen ▸ hilt), s.chain_setChain hilt]
  · intro y
    have hperm := ((s.setChain i next).push [n]).otherShares_perm hilt.ne
    have hset : ((s.setChain i next).push [n]).setChain i [] = (s.setChain i []).push [n] := by
      simp [MbufState.setChain, MbufState.push, List.set_append_left, hilt]
    rw [hk, hset, MbufState.otherShares_push _ (MbufState.length_setChain s).symm] at hperm
    exact hperm.mem_iff

omit h [DecidableEq κ] in
theorem PullsInPlace.exists_next (hfront : PullsInPlace n next len) : ∃ n₂ next₂, next = n₂ :: next₂ := by
  refine List.exists_cons_of_ne_nil ?_
  rcases hfront with hfront | hfront
  · exact hfront.2.1
  · exact hfront.2.2.1

variable {mget : Bool} {mem : Option κ}

/-- `m_pullup`. -/
theorem mPullup (hi : s.chain i ≠ []) (hfresh : ∀ b ∈ mem, b ∉ s.clusters)
    (hok : PullupOk (s.otherShares i) len mget mem (s.chain i)) : ∃ t, mPullup s i len mget mem = some t ∧ CountInv t := by
  have hilt := s.lt_of_chain hi
  rw [Net.mPullup]
  cases hc : s.chain i with
  | nil => exact absurd hc hi
  | cons n next =>
      rw [hc, PullupOk] at hok
      dsimp only
      split_ifs at hok ⊢ with hfront hle hbad
      · exact ⟨s, rfl, h⟩
      · -- the mbuf at the front is kept
        obtain ⟨n₂, next₂, rfl⟩ := PullsInPlace.exists_next hfront
        have ⟨hshort, hlast⟩ := hok (not_le.mp hle) n₂ rfl
        have ⟨hinv, hui, huk, huo⟩ := h.pullup_front hc
        refine hinv.mPullupInto hilt.ne hui huk ?_ fun hlt => absurd hlt hshort.not_gt
        intro hle₂
        exact (lastOk_congr huo).mpr (hlast (le_antisymm hle₂ hshort))
      · have ⟨t, ht, hinv, _⟩ := h.mFreem hi (by rw [hc]; exact hok)
        exact ⟨t, ht, hinv⟩
      · exact h.mPullupNew hc hfresh hok.1 hok.2

theorem mPullup_early (hfresh : ∀ b ∈ mem, b ∉ s.clusters) (hok : ¬ PullupOk (s.otherShares i) len mget mem (s.chain i))
    (ht : Net.mPullup s i len mget mem = some t) : ∃ r ∈ t.returned, r.2 = true := by
  rw [Net.mPullup] at ht
  cases hc : s.chain i with
  | nil =>
      rw [hc] at hok
      exact absurd trivial hok
  | cons n next =>
      have hilt : i < s.chains.length := s.lt_of_chain (by simp [hc])
      rw [hc, PullupOk] at hok
      rw [hc] at ht
      dsimp only at ht
      split_ifs at hok ht with hfront hle hbad
      · exact absurd (fun hlt => absurd hle hlt.not_ge) hok
      · obtain ⟨n₂, next₂, rfl⟩ := PullsInPlace.exists_next hfront
        have ⟨hinv, hui, huk, huo⟩ := h.pullup_front hc
        by_cases hshort : len - n.mLen ≤ n₂.mLen
        · have ⟨hn₂, hlast⟩ : n₂.mLen = len - n.mLen ∧
              ¬ LastOk (shares (n₂ :: next₂)) (shares [n] ++ s.otherShares i) := by
            by_contra hgood
            refine hok fun _ x hx => ?_
            obtain rfl := Option.some.inj hx
            exact ⟨hshort, fun heq => by_contra fun hl => hgood ⟨heq, hl⟩⟩
          exact hinv.mPullupInto_early hilt.ne hui huk hn₂.le (fun hl => hlast ((lastOk_congr huo).mp hl)) ht
        · rw [mPullupInto_none hui huk (not_le.mp hshort)] at ht
          cases ht
      · exact h.mFreem_early (by rw [hc]; exact hok) ht
      · exact h.mPullupNew_early hc hfresh hok ht

/-! ### Calls -/

omit h [DecidableEq κ] in
theorem shares_mAdjCl (c : List (ClMbuf κ)) (reqLen : ℤ) : shares (mAdjCl c reqLen) = shares c := by
  refine shares_congr ?_
  have hlen := length_mAdj (c.map ClMbuf.toMbuf) reqLen
  rw [List.length_map] at hlen
  rw [mAdjCl]
  generalize mAdj (c.map ClMbuf.toMbuf) reqLen = l at hlen
  induction c generalizing l with
  | nil => rfl
  | cons m c ih =>
      cases l with
      | nil => cases hlen
      | cons x l =>
          rw [List.zipWith_cons_cons, List.map_cons, List.map_cons, ih l (Nat.succ.inj hlen)]

omit h [DecidableEq κ] in
theorem shares_modify (c : List (ClMbuf κ)) (j : ℕ) (f : ClMbuf κ → ClMbuf κ) (hf : ∀ m, (f m).mExt = m.mExt) :
    shares (c.modify j f) = shares c := by
  refine shares_congr ?_
  induction c generalizing j with
  | nil => rw [List.modify_nil]
  | cons m c ih =>
      cases j with
      | zero => rw [List.modify_zero_cons, List.map_cons, List.map_cons, hf]
      | succ j => rw [List.modify_succ_cons, List.map_cons, List.map_cons, ih]

/-- Every call that does right returns and keeps the counters. -/
theorem call (c : MbufCall κ) (hfits : c.Fits s) (hwrap : c.NoWrap s) (hok : c.Ok s) :
    ∃ t, s.call c = some t ∧ CountInv t := by
  cases c with
  | mGet hdr mType mem =>
      refine ⟨_, rfl, ?_⟩
      cases mem with
      | false => exact h.push_nil
      | true => cases hdr <;> exact h.push_one rfl
  | mGetCl hdr mType mem cl =>
      cases mem with
      | false => exact ⟨_, rfl, h.push_nil⟩
      | true =>
          have ⟨b, hb⟩ := Option.ne_none_iff_exists'.mp (hok rfl)
          subst hb
          set m : ClMbuf κ := if hdr then mGethdrInit mType else mGetInit mType with hm
          have hext : m.mExt = none := by cases hdr <;> rfl
          have ⟨t, ht, hinv, _⟩ := (h.push_one hext).mClget (s.chain_push rfl) hext (hfits b rfl)
          exact ⟨t, ht, hinv⟩
  | mClgetNull hdr mem =>
      refine ⟨_, rfl, ?_⟩
      cases hdr with
      | false => exact h.push_nil
      | true =>
          cases mem with
          | none => exact h.push_nil
          | some b =>
              refine ⟨?_, h.last⟩
              refine (h.count.alloc (hfits b rfl)).perm ?_
              have hpush := s.allShares_push (c := [(mGethdrInit 1 : ClMbuf κ).clget b])
              refine List.Perm.trans ?_ (List.Perm.of_eq hpush.symm)
              exact (List.perm_append_singleton (b, (1 : BitVec 32)) s.allShares).symm
  | mFree i =>
      cases hc : s.chain i with
      | nil => exact absurd hc hfits
      | cons m next =>
          have hlast : LastOk (shares [m]) (shares next ++ s.otherShares i) := by
            simpa [MbufCall.Ok, hc] using hok
          have ⟨t, ht, hinv, _⟩ := h.mFree hc hlast
          exact ⟨t, ht, hinv⟩
  | mFreem i =>
      have ⟨t, ht, hinv, _⟩ := h.mFreem hfits hok
      exact ⟨t, ht, hinv⟩
  | mCopym i offset len mem => exact h.mCopym hfits hwrap hok
  | mPullup i len mget mem => exact h.mPullup hfits.1 hfits.2 hok
  | mAdj i reqLen =>
      exact ⟨_, rfl, h.setChain (List.Perm.of_eq (shares_mAdjCl (s.chain i) reqLen).symm)⟩
  | fill i j mData bytes =>
      refine ⟨_, rfl, h.setChain (List.Perm.of_eq ?_)⟩
      exact (shares_modify (s.chain i) j (fun m => { m with mData := mData, bytes := bytes })
        fun _ => rfl).symm
  | link i j =>
      refine ⟨_, rfl, ?_⟩
      by_cases hj : s.chain j = []
      · have hself : s.setChain j [] = s := hj ▸ s.setChain_chain j
        rw [hj, List.append_nil, s.setChain_chain, hself]
        exact h
      · refine h.move hfits.1 (s.lt_of_chain hfits.2) (s.lt_of_chain hj) (List.Perm.of_eq ?_)
        rw [shares_append, shares_nil, List.append_nil]
  | cut i n =>
      refine ⟨_, rfl, ?_⟩
      by_cases hi : s.chain i = []
      · have hself : s.setChain i [] = s := hi ▸ s.setChain_chain i
        rw [hi, List.take_nil, List.drop_nil, hself]
        exact h.push_nil
      · refine h.of_perm rfl rfl ((s.allShares_perm i).trans ?_)
        have hafter := s.allShares_setChain (c := (s.chain i).take n) (s.lt_of_chain hi)
        have hsplit : shares (s.chain i) = shares ((s.chain i).take n) ++ shares ((s.chain i).drop n) := by
          rw [← shares_append, List.take_append_drop]
        rw [MbufState.allShares_push, hsplit, List.append_assoc]
        refine (List.perm_append_comm.append_left _).trans ?_
        rw [← List.append_assoc]
        exact hafter.symm.append_right _

/-- A call that does not do right does not return, or frees a cluster too early. -/
theorem call_early (c : MbufCall κ) (hfits : c.Fits s) (hwrap : c.NoWrap s) (hok : ¬ c.Ok s)
    (ht : s.call c = some t) : ∃ r ∈ t.returned, r.2 = true := by
  cases c with
  | mGet hdr mType mem => exact absurd trivial hok
  | mGetCl hdr mType mem cl =>
      simp only [MbufCall.Ok, Classical.not_imp, not_not] at hok
      obtain ⟨rfl, rfl⟩ := hok
      simp [MbufState.call, Net.mClget] at ht
  | mClgetNull hdr mem => exact absurd trivial hok
  | mFree i =>
      cases hc : s.chain i with
      | nil => exact absurd hc hfits
      | cons m next =>
          have hlast : ¬ LastOk (shares [m]) (shares next ++ s.otherShares i) := by
            simpa [MbufCall.Ok, hc] using hok
          exact mFree_early hc hlast ht
  | mFreem i => exact h.mFreem_early hok ht
  | mCopym i offset len mem => exact h.mCopym_early hfits hwrap hok ht
  | mPullup i len mget mem => exact h.mPullup_early hfits.2 hok ht
  | mAdj i reqLen => exact absurd trivial hok
  | fill i j mData bytes => exact absurd trivial hok
  | link i j => exact absurd trivial hok
  | cut i n => exact absurd trivial hok

end CountInv

/-- No mbufs, and no clusters. -/
def mbufStart : MbufState κ := { chains := [], clusters := ∅, returned := [] }

theorem countInv_mbufStart : CountInv (mbufStart : MbufState κ) :=
  ⟨SplitCount.start, fun _ hr => absurd hr List.not_mem_nil⟩

/-- **Each cluster is returned exactly once, with its last mbuf, all along a run whose counters fit in 32 bits
if and only if all its calls do right.** -/
theorem clustersRight_iff (calls : List (MbufCall κ))
    (hfits : AllCalls MbufState.call (fun s c => c.Fits s ∧ c.NoWrap s) mbufStart calls) :
    KeepsAll MbufState.call ClustersRight (mbufStart : MbufState κ) calls ↔
      AllCalls MbufState.call (fun s c => c.Ok s) mbufStart calls := by
  refine keepsAll_iff_of_inv CountInv (fun s h => h.right) ?_ ?_ countInv_mbufStart calls hfits
  · intro s c h hfit hok
    exact h.call c hfit.1 hfit.2 hok
  · intro s c t h hfit hok hcall hright
    exact hright.not_early (h.call_early c hfit.1 hfit.2 hok hcall)

end

/-- A cluster is shared, the mbuf that had it first is freed, and then its copy. -/
theorem clustersRight_iff_share :
    KeepsAll MbufState.call ClustersRight (mbufStart : MbufState ℕ)
      [.mGetCl true 1 true (some 7), .fill 0 0 0 [1, 2, 3], .mCopym 0 0 2 1, .mAdj 0 1, .mFreem 0,
        .mPullup 1 2 true none, .mFreem 1] :=
  (clustersRight_iff _ (by decide +kernel)).mpr (by decide +kernel)

/-- The copy is freed first: it counts 1, and the mbuf that was copied counts 2. The cluster is returned while
that mbuf still refers to it. -/
theorem mFreem_can_return_early :
    ∃ t, runCalls MbufState.call (mbufStart : MbufState ℕ)
        [.mGetCl true 1 true (some 7), .fill 0 0 0 [1, 2, 3], .mCopym 0 0 2 1, .mFreem 1] = some t ∧
      t.returned = [(7, true)] ∧ t.clusters = ∅ ∧ t.allShares = [(7, 2)] ∧ ¬ ClustersRight t := by
  have hrun : (runCalls MbufState.call (mbufStart : MbufState ℕ)
      [.mGetCl true 1 true (some 7), .fill 0 0 0 [1, 2, 3], .mCopym 0 0 2 1, .mFreem 1]).map
        (fun t => (t.returned, t.clusters, t.allShares)) = some ([(7, true)], ∅, [(7, 2)]) := by
    decide +kernel
  have ⟨t, ht, hfacts⟩ := Option.map_eq_some_iff.mp hrun
  have ⟨hreturned, hrest⟩ := Prod.mk.inj hfacts
  have ⟨hclusters, hshares⟩ := Prod.mk.inj hrest
  refine ⟨t, ht, hreturned, hclusters, hshares, ?_⟩
  intro hright
  exact absurd (hright.last (7, true) (by rw [hreturned]; exact List.mem_cons_self)) (by decide)

/-- The second mbuf does not have enough. `m_pullup` frees it, and then frees it again from the first one. -/
example : runCalls MbufState.call (mbufStart : MbufState ℕ)
    [.mGet false 1 true, .fill 0 0 0 [1], .mGetCl false 1 true (some 7), .fill 1 0 0 [2], .link 0 1,
      .mPullup 0 3 true none] = none := by decide +kernel

end Shaunos.Net
