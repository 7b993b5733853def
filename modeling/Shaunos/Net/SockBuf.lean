import Shaunos.Common.Run
import Shaunos.Net.Mbuf

/-!
# Socket buffers

Reference: `Kernel/net/uipc_socket2.c` (`sbappendaddr`, `sbdrop`, `sbflush`, `sbdroprecord`,
`sbcompress`, `sbappendrecord`, `sbappend`), `Include/kernel/sys/socketval.h` (`sballoc`, `sbfree`,
`sbspace`).

A socket buffer is a list of records, and a record is a chain of mbufs. Two counters are kept by every
function as it goes: the number of bytes and the memory that the mbufs take.

* `SbInv` — the counters are the sums over all mbufs, and no record is empty;
* `sbcompress_spec`, `sbdrop_spec`, … — what each function does to the bytes and the counters;
* `sbInv_of_reach` — the counters and the bytes are right in every state reached.
-/

namespace Shaunos.Net

/-! ## The code -/

/-- `sb_cc` and `sb_mbcnt`. -/
structure SbCount where
  sbCc : BitVec 32
  sbMbcnt : BitVec 32

/-- `sballoc`. -/
def sballoc (c : SbCount) (m : Mbuf) : SbCount where
  sbCc := c.sbCc + BitVec.ofNat 32 m.mLen
  sbMbcnt := c.sbMbcnt + BitVec.ofNat 32 mSIZE + if m.mExt then BitVec.ofNat 32 mCLBYTES else 0

/-- `sbfree`. -/
def sbfree (c : SbCount) (m : Mbuf) : SbCount where
  sbCc := c.sbCc - BitVec.ofNat 32 m.mLen
  sbMbcnt := c.sbMbcnt - BitVec.ofNat 32 mSIZE - if m.mExt then BitVec.ofNat 32 mCLBYTES else 0

/-- `struct sockbuf`. -/
structure SockBuf extends SbCount where
  sbHiwat : BitVec 32
  sbMbmax : BitVec 32
  /-- `sb_flags & SB_LOCK`. -/
  sbLock : Bool
  /-- The records from `sb_mb` on. -/
  sbMb : List (List Mbuf)

/-- `sbspace`. -/
def sbspace (sb : SockBuf) : ℤ :=
  min (sb.sbHiwat - sb.sbCc).toInt (sb.sbMbmax - sb.sbMbcnt).toInt

/-- The loop of `sbcompress`. `record` ends with `n`; it is empty when `n` is null. -/
def sbcompressLoop : (record : List Mbuf) → (eor : Bool) → SbCount → (m : List Mbuf) →
    List Mbuf × Bool × SbCount
  | record, eor, c, [] => (record, eor, c)
  | record, eor, c, m :: rest =>
      let eor := eor || m.mEor
      let o := rest.head?.or record.getLast?
      if m.mLen = 0 ∧ (eor = false ∨ o.any fun o => o.mType = m.mType) then
        sbcompressLoop record eor c rest
      else
        match record.getLast? with
        | some n =>
            if (n.mExt || n.mEor) = false ∧ n.mData + n.mLen + m.mLen < mLEN ∧ n.mType = m.mType then
              sbcompressLoop (record.dropLast ++ [{ n with bytes := n.bytes ++ m.bytes }]) eor
                { c with sbCc := c.sbCc + BitVec.ofNat 32 m.mLen } rest
            else sbcompressLoop (record ++ [{ m with mEor := false }]) eor (sballoc c m) rest
        | none => sbcompressLoop [{ m with mEor := false }] eor (sballoc c m) rest

/-- Set `M_EOR` on the last mbuf. -/
def setEor : List Mbuf → List Mbuf
  | [] => []
  | [n] => [{ n with mEor := true }]
  | n :: m :: rest => n :: setEor (m :: rest)

/-- `sbcompress`, where `n` is the last mbuf of the last record, or null if there is none. -/
def sbcompress (sb : SockBuf) (m : List Mbuf) : SockBuf :=
  let (record, eor, c) := sbcompressLoop (sb.sbMb.getLastD []) false sb.toSbCount m
  let record := if eor then setEor record else record
  { sb with
    toSbCount := c
    sbMb := sb.sbMb.dropLast ++ if record = [] then [] else [record] }

/-- `sbappendrecord`. -/
def sbappendrecord (sb : SockBuf) (m : List Mbuf) : SockBuf :=
  match m with
  | [] => sb
  | m0 :: m =>
      let c := sballoc sb.toSbCount m0
      match m with
      | [] => { sb with toSbCount := c, sbMb := sb.sbMb ++ [[m0]] }
      | m1 :: rest =>
          if m0.mEor then
            sbcompress { sb with toSbCount := c, sbMb := sb.sbMb ++ [[{ m0 with mEor := false }]] }
              ({ m1 with mEor := true } :: rest)
          else sbcompress { sb with toSbCount := c, sbMb := sb.sbMb ++ [[m0]] } (m1 :: rest)

/-- `sbappend`. -/
def sbappend (sb : SockBuf) (m : List Mbuf) : SockBuf :=
  match m with
  | [] => sb
  | _ =>
      if (sb.sbMb.getLastD []).any Mbuf.mEor then sbappendrecord sb m
      else sbcompress sb m

/-- A `struct sockaddr`: the `sa_len` bytes, which start with the length itself. -/
abbrev Sockaddr := { asa : List Byte // asa.length < 256 }

/-- `sbappendaddr`: the value returned. `mget` says if `MGET` finds memory. -/
def sbappendaddr (sb : SockBuf) (asa : Sockaddr) (m0 control : List Mbuf) (mget : Bool) :
    Option (ℤ × SockBuf) :=
  match m0.head?.map Mbuf.mPkthdr with
  | some none => none -- panic
  | pkthdr =>
      let space := (BitVec.ofInt 32 (asa.1.length + ((pkthdr.bind id).getD 0) + chainLen control)).toInt
      if space > sbspace sb then some (0, sb)
      else if asa.1.length > mLEN then some (0, sb)
      else if !mget then some (0, sb)
      else
        let m : Mbuf := { mType := mtSONAME, mExt := false, mEor := false, mPkthdr := none, mData := 0,
                          bytes := asa.1 }
        let record := m :: (control ++ m0)
        some (1, { sb with
          toSbCount := record.foldl sballoc sb.toSbCount, sbMb := sb.sbMb ++ [record] })

/-- The loop of `sbdrop` in one record: what is left of the record and of the length. -/
def sbdropRecord : SbCount → (len : ℤ) → List Mbuf → SbCount × ℤ × List Mbuf
  | c, len, [] => (c, len, [])
  | c, len, m :: rest =>
      if len ≤ 0 then (c, len, m :: rest)
      else if m.mLen > len then
        ({ c with sbCc := c.sbCc - BitVec.ofInt 32 len }, 0,
          { m with mData := m.mData + len.toNat, bytes := m.bytes.drop len.toNat } :: rest)
      else sbdropRecord (sbfree c m) (len - m.mLen) rest

/-- The loop of `sbdrop`; it panics when the buffer ends before the length. -/
def sbdropLoop : SbCount → (len : ℤ) → (m : List Mbuf) → (next : List (List Mbuf)) →
    Option (SbCount × List Mbuf × List (List Mbuf))
  | c, len, m, next =>
      let (c, len, m) := sbdropRecord c len m
      if len ≤ 0 then some (c, m, next)
      else
        match next with
        | [] => none
        | m :: next => sbdropLoop c len m next

/-- The second loop of `sbdrop`: mbufs without bytes at the front. -/
def sbdropEmpty : SbCount → List Mbuf → SbCount × List Mbuf
  | c, [] => (c, [])
  | c, m :: rest => if m.mLen = 0 then sbdropEmpty (sbfree c m) rest else (c, m :: rest)

/-- `sbdrop`. -/
def sbdrop (sb : SockBuf) (len : ℤ) : Option SockBuf := do
  let (c, m, next) ← sbdropLoop sb.toSbCount len (sb.sbMb.headD []) sb.sbMb.tail
  let (c, m) := sbdropEmpty c m
  return { sb with toSbCount := c, sbMb := if m = [] then next else m :: next }

/-- The loop of `sbflush`. Once a turn frees no mbuf, it goes round for ever. -/
def sbflushLoop : ℕ → SockBuf → Option SockBuf
  | 0, _ => none
  | fuel + 1, sb =>
      if sb.sbMbcnt = 0 then some sb
      else (sbdrop sb sb.sbCc.toInt).bind (sbflushLoop fuel)

/-- `sbflush`. -/
def sbflush (sb : SockBuf) : Option SockBuf := do
  if sb.sbLock then none
  else
    let sb ← sbflushLoop (sb.sbMb.flatten.length + 2) sb
    if sb.sbCc ≠ 0 ∨ sb.sbMb ≠ [] then none else some sb

/-- `sbdroprecord`. -/
def sbdroprecord (sb : SockBuf) : SockBuf :=
  match sb.sbMb with
  | [] => sb
  | m :: next => { sb with toSbCount := m.foldl sbfree sb.toSbCount, sbMb := next }

/-! ## Runs -/

/-- The calls on a socket buffer. -/
inductive SbCall where
  | sbappend (m : List Mbuf)
  | sbappendrecord (m : List Mbuf)
  | sbappendaddr (asa : Sockaddr) (m0 control : List Mbuf) (mget : Bool)
  | sbdrop (len : ℤ)
  | sbdroprecord
  | sbflush

/-- The bytes in a socket buffer. -/
def SockBuf.bytes (sb : SockBuf) : List Byte := chainBytes sb.sbMb.flatten

/-- A socket buffer, with all bytes that were appended to it and the number of those dropped. -/
structure SbLog where
  sb : SockBuf
  appended : List Byte
  dropped : ℕ

/-- One call. -/
def SbLog.call (s : SbLog) : SbCall → Option SbLog
  | .sbappend m => some { s with sb := sbappend s.sb m, appended := s.appended ++ chainBytes m }
  | .sbappendrecord m =>
      some { s with sb := sbappendrecord s.sb m, appended := s.appended ++ chainBytes m }
  | .sbappendaddr asa m0 control mget => do
      let (ret, sb) ← sbappendaddr s.sb asa m0 control mget
      return { s with
        sb := sb
        appended := if ret = 0 then s.appended
          else s.appended ++ (asa.1 ++ chainBytes control ++ chainBytes m0) }
  | .sbdrop len => (sbdrop s.sb len).map fun sb =>
      { s with sb := sb, dropped := s.dropped + len.toNat }
  | .sbdroprecord =>
      some { s with
        sb := sbdroprecord s.sb, dropped := s.dropped + chainLen (s.sb.sbMb.headD []) }
  | .sbflush => (sbflush s.sb).map fun sb =>
      { s with sb := sb, dropped := s.dropped + s.sb.bytes.length }

/-- `sbdrop` is called with a length of at most `sb_cc`. -/
def SbCall.Fits (s : SbLog) : SbCall → Prop
  | .sbdrop len => len ≤ s.sb.sbCc.toNat
  | _ => True

instance (s : SbLog) : ∀ call, Decidable (SbCall.Fits s call)
  | .sbdrop _ => inferInstanceAs (Decidable (_ ≤ _))
  | .sbappend _ => isTrue trivial
  | .sbappendrecord _ => isTrue trivial
  | .sbappendaddr .. => isTrue trivial
  | .sbdroprecord => isTrue trivial
  | .sbflush => isTrue trivial

/-- An empty socket buffer. -/
def emptySb (hiwat mbmax : BitVec 32) (lock : Bool) : SbLog where
  sb := { sbCc := 0, sbMbcnt := 0, sbHiwat := hiwat, sbMbmax := mbmax, sbLock := lock, sbMb := [] }
  appended := []
  dropped := 0

/-- The counters are the sums over all mbufs of all records, as far as 32 bits hold them, and the bytes
are those appended without those dropped. -/
structure SbRight (s : SbLog) : Prop where
  cc : s.sb.sbCc = BitVec.ofNat 32 (chainLen s.sb.sbMb.flatten)
  mbcnt : s.sb.sbMbcnt = BitVec.ofNat 32 (chainSize s.sb.sbMb.flatten)
  bytes : s.sb.bytes = s.appended.drop s.dropped

/-! ## Counters -/

/-- The counters say `n` bytes in mbufs of size `s`. -/
structure Tally (c : SbCount) (n s : ℕ) : Prop where
  cc : c.sbCc = BitVec.ofNat 32 n
  mbcnt : c.sbMbcnt = BitVec.ofNat 32 s

/-- The counters are the sums, and no record is empty. -/
structure SbInv (sb : SockBuf) : Prop where
  tally : Tally sb.toSbCount (chainLen sb.sbMb.flatten) (chainSize sb.sbMb.flatten)
  records : ∀ r ∈ sb.sbMb, r ≠ []

section

variable {c : SbCount} {n s : ℕ} {m record : List Mbuf} {next : List (List Mbuf)} {sb sb' : SockBuf}
  {len : ℤ}

theorem ofNat_size (x : Mbuf) : BitVec.ofNat 32 x.size =
    BitVec.ofNat 32 mSIZE + if x.mExt then BitVec.ofNat 32 mCLBYTES else 0 := by
  unfold Mbuf.size
  split <;> rfl

theorem Tally.alloc (h : Tally c n s) (x : Mbuf) : Tally (sballoc c x) (n + x.mLen) (s + x.size) := by
  refine ⟨?_, ?_⟩
  · simp only [sballoc, h.cc, BitVec.ofNat_add]
  · simp only [sballoc, h.mbcnt, BitVec.ofNat_add, ofNat_size, BitVec.add_assoc]

theorem Tally.free {x : Mbuf} (h : Tally c (n + x.mLen) (s + x.size)) : Tally (sbfree c x) n s := by
  refine ⟨?_, ?_⟩
  · simp only [sbfree, h.cc, BitVec.ofNat_add, BitVec.add_sub_cancel]
  · simp only [sbfree, h.mbcnt, BitVec.ofNat_add, ofNat_size, BitVec.sub_sub, BitVec.add_sub_cancel]

theorem Tally.congr {n' s' : ℕ} (h : Tally c n s) (hn : n' = n) (hs : s' = s) : Tally c n' s' := by
  rw [hn, hs]
  exact h

/-- `sballoc` for every mbuf of a chain. -/
theorem Tally.allocAll (h : Tally c n s) (m : List Mbuf) :
    Tally (m.foldl sballoc c) (n + chainLen m) (s + chainSize m) := by
  induction m generalizing c n s with
  | nil => exact h
  | cons x m ih =>
      refine (ih (h.alloc x)).congr ?_ ?_
      · rw [chainLen_cons, Nat.add_assoc]
      · rw [chainSize_cons, Nat.add_assoc]

/-- `sbfree` for every mbuf of a chain. -/
theorem Tally.freeAll (m : List Mbuf) (h : Tally c (n + chainLen m) (s + chainSize m)) :
    Tally (m.foldl sbfree c) n s := by
  induction m generalizing c with
  | nil => exact h
  | cons x m ih =>
      refine ih (Tally.free (x := x) (h.congr ?_ ?_))
      · rw [chainLen_cons]
        omega
      · rw [chainSize_cons]
        omega

/-! ## Appending -/

/-- What the loop of `sbcompress` makes of a record: the same bytes, and counters that follow it. -/
theorem sbcompressLoop_spec (eor : Bool) (m : List Mbuf)
    (h : Tally c (n + chainLen record) (s + chainSize record)) :
    chainBytes (sbcompressLoop record eor c m).1 = chainBytes record ++ chainBytes m ∧
      (record ≠ [] → (sbcompressLoop record eor c m).1 ≠ []) ∧
      Tally (sbcompressLoop record eor c m).2.2
        (n + chainLen (sbcompressLoop record eor c m).1)
        (s + chainSize (sbcompressLoop record eor c m).1) := by
  induction m generalizing record eor c with
  | nil => exact ⟨by simp [sbcompressLoop], fun hne => hne, h⟩
  | cons x rest ih =>
      -- an mbuf that is linked behind the record
      have hlink : ∀ r, record ++ [{ x with mEor := false }] = r →
          Tally (sballoc c x) (n + chainLen r) (s + chainSize r) ∧
            chainBytes r = chainBytes record ++ x.bytes := by
        rintro r rfl
        refine ⟨(h.alloc x).congr ?_ ?_, by simp⟩
        · simp [Mbuf.mLen]
          omega
        · simp [Mbuf.size]
          omega
      rw [sbcompressLoop]
      split
      · -- an mbuf without bytes is freed
        rename_i hempty
        have hbytes : x.bytes = [] := List.length_eq_zero_iff.mp hempty.1
        obtain ⟨hb, hne, ht⟩ := ih (eor || x.mEor) h
        exact ⟨by rw [hb, chainBytes_cons, hbytes, List.nil_append], hne, ht⟩
      split
      · rename_i n' hlast
        obtain ⟨front, rfl⟩ := List.getLast?_eq_some_iff.mp hlast
        split
        · -- the bytes are copied behind those of the last mbuf
          rw [List.dropLast_append_cons, List.dropLast_singleton, List.append_nil]
          have hcopy : Tally { c with sbCc := c.sbCc + BitVec.ofNat 32 x.mLen }
              (n + chainLen (front ++ [{ n' with bytes := n'.bytes ++ x.bytes }]))
              (s + chainSize (front ++ [{ n' with bytes := n'.bytes ++ x.bytes }])) := by
            refine ⟨?_, ?_⟩
            · simp [h.cc, Mbuf.mLen, BitVec.ofNat_add, BitVec.add_assoc]
            · simp [h.mbcnt, Mbuf.size]
          obtain ⟨hb, hne, ht⟩ := ih (eor || x.mEor) hcopy
          exact ⟨by simp [hb], fun _ => hne (by simp), ht⟩
        · obtain ⟨ht, hb⟩ := hlink _ rfl
          obtain ⟨hb', hne, ht'⟩ := ih (eor || x.mEor) ht
          exact ⟨by rw [hb', hb, chainBytes_cons, List.append_assoc], fun _ => hne (by simp), ht'⟩
      · rename_i hlast
        obtain rfl := List.getLast?_eq_none_iff.mp hlast
        obtain ⟨ht, hb⟩ := hlink _ rfl
        obtain ⟨hb', hne, ht'⟩ := ih (eor || x.mEor) ht
        exact ⟨by rw [List.nil_append] at hb hb'; rw [hb', hb, chainBytes_cons, List.append_assoc],
          fun h0 => absurd rfl h0, ht'⟩

theorem setEor_spec (l : List Mbuf) : chainBytes (setEor l) = chainBytes l ∧
    chainLen (setEor l) = chainLen l ∧ chainSize (setEor l) = chainSize l ∧
      (l ≠ [] → setEor l ≠ []) := by
  induction l using setEor.induct with
  | case1 => exact ⟨rfl, rfl, rfl, fun h => h⟩
  | case2 x => simp [setEor, Mbuf.mLen, Mbuf.size]
  | case3 x y rest ih =>
      obtain ⟨hb, hl, hs, -⟩ := ih
      exact ⟨by rw [setEor, chainBytes_cons, hb, ← chainBytes_cons],
        by rw [setEor, chainLen_cons, hl, ← chainLen_cons],
        by rw [setEor, chainSize_cons, hs, ← chainSize_cons], fun _ => List.cons_ne_nil _ _⟩

/-- The last record is the end of the buffer. -/
theorem flatten_last (l : List (List Mbuf)) : l.flatten = l.dropLast.flatten ++ l.getLastD [] := by
  by_cases hl : l = []
  · subst hl
    rfl
  · conv_lhs => rw [← List.dropLast_append_getLast hl]
    rw [List.flatten_append, List.getLastD_eq_getLast?, List.getLast?_eq_some_getLast hl]
    simp

/-- `sbcompress` appends the bytes of the chain. -/
theorem sbcompress_spec (h : SbInv sb) (m : List Mbuf) :
    SbInv (sbcompress sb m) ∧ (sbcompress sb m).bytes = sb.bytes ++ chainBytes m := by
  have hold : Tally sb.toSbCount
      (chainLen sb.sbMb.dropLast.flatten + chainLen (sb.sbMb.getLastD []))
      (chainSize sb.sbMb.dropLast.flatten + chainSize (sb.sbMb.getLastD [])) := by
    refine h.tally.congr ?_ ?_
    · rw [flatten_last sb.sbMb, chainLen_append]
    · rw [flatten_last sb.sbMb, chainSize_append]
  obtain ⟨hb, -, ht⟩ := sbcompressLoop_spec false m hold
  obtain ⟨heb, hel, hes, hene⟩ := setEor_spec
    (sbcompressLoop (sb.sbMb.getLastD []) false sb.toSbCount m).1
  set r := sbcompressLoop (sb.sbMb.getLastD []) false sb.toSbCount m
  -- the record that is linked has the bytes and the sums of the loop's record
  have hrecord : ∀ l : List Mbuf, chainBytes l = chainBytes r.1 → chainLen l = chainLen r.1 →
      chainSize l = chainSize r.1 →
      SbInv { sb with
          toSbCount := r.2.2, sbMb := sb.sbMb.dropLast ++ if l = [] then [] else [l] } ∧
        SockBuf.bytes { sb with
          toSbCount := r.2.2, sbMb := sb.sbMb.dropLast ++ if l = [] then [] else [l] }
          = sb.bytes ++ chainBytes m := by
    intro l hlb hll hls
    have hflat : (sb.sbMb.dropLast ++ if l = [] then [] else [l]).flatten
        = sb.sbMb.dropLast.flatten ++ l := by
      split
      · rename_i hnil
        simp [hnil]
      · simp
    refine ⟨⟨ht.congr ?_ ?_, fun q hq => ?_⟩, ?_⟩
    · simp only [hflat, chainLen_append, hll]
    · simp only [hflat, chainSize_append, hls]
    · rcases List.mem_append.mp hq with hq | hq
      · exact h.records q (List.dropLast_subset _ hq)
      · split at hq
        · cases hq
        · rename_i hne
          obtain rfl := List.mem_singleton.mp hq
          exact hne
    · unfold SockBuf.bytes
      simp only [hflat]
      rw [chainBytes_append, hlb, hb, ← List.append_assoc, ← chainBytes_append, ← flatten_last]
  have heq : sbcompress sb m = { sb with
      toSbCount := r.2.2
      sbMb := sb.sbMb.dropLast ++ if (if r.2.1 then setEor r.1 else r.1) = [] then []
        else [if r.2.1 then setEor r.1 else r.1] } := rfl
  rw [heq]
  split
  · exact hrecord (setEor r.1) heb hel hes
  · exact hrecord r.1 rfl rfl rfl

/-- A record behind the others. -/
theorem SbInv.push (h : SbInv sb) (hne : record ≠ [])
    (ht : Tally c (chainLen sb.sbMb.flatten + chainLen record)
      (chainSize sb.sbMb.flatten + chainSize record)) :
    SbInv { sb with toSbCount := c, sbMb := sb.sbMb ++ [record] } ∧
      SockBuf.bytes { sb with toSbCount := c, sbMb := sb.sbMb ++ [record] }
        = sb.bytes ++ chainBytes record := by
  refine ⟨⟨ht.congr ?_ ?_, fun q hq => ?_⟩, ?_⟩
  · simp
  · simp
  · rcases List.mem_append.mp hq with hq | hq
    · exact h.records q hq
    · exact List.mem_singleton.mp hq ▸ hne
  · simp [SockBuf.bytes]

/-- `sbappendrecord` appends the bytes of the chain. -/
theorem sbappendrecord_spec (h : SbInv sb) (m : List Mbuf) :
    SbInv (sbappendrecord sb m) ∧ (sbappendrecord sb m).bytes = sb.bytes ++ chainBytes m := by
  cases m with
  | nil => exact ⟨h, by simp [sbappendrecord]⟩
  | cons m0 m =>
      -- the first mbuf is a record, whether its `M_EOR` is passed on or not
      have hfirst : ∀ eor, SbInv { sb with
            toSbCount := sballoc sb.toSbCount m0, sbMb := sb.sbMb ++ [[{ m0 with mEor := eor }]] } ∧
          SockBuf.bytes { sb with
            toSbCount := sballoc sb.toSbCount m0, sbMb := sb.sbMb ++ [[{ m0 with mEor := eor }]] }
            = sb.bytes ++ m0.bytes := by
        intro eor
        have htally : Tally (sballoc sb.toSbCount m0)
            (chainLen sb.sbMb.flatten + chainLen [{ m0 with mEor := eor }])
            (chainSize sb.sbMb.flatten + chainSize [{ m0 with mEor := eor }]) :=
          (h.tally.alloc m0).congr (by simp [Mbuf.mLen]) (by simp [Mbuf.size])
        obtain ⟨hinv, hbytes⟩ := h.push (List.cons_ne_nil _ _) htally
        exact ⟨hinv, by rw [hbytes]; simp⟩
      cases m with
      | nil => simpa [sbappendrecord] using hfirst m0.mEor
      | cons m1 rest =>
          rw [sbappendrecord]
          split
          · obtain ⟨hinv, hbytes⟩ := hfirst false
            obtain ⟨hinv', hbytes'⟩ := sbcompress_spec hinv ({ m1 with mEor := true } :: rest)
            exact ⟨hinv', by rw [hbytes', hbytes]; simp⟩
          · obtain ⟨hinv, hbytes⟩ := hfirst m0.mEor
            obtain ⟨hinv', hbytes'⟩ := sbcompress_spec hinv (m1 :: rest)
            exact ⟨hinv', by rw [hbytes', hbytes]; simp⟩

/-- `sbappend` appends the bytes of the chain. -/
theorem sbappend_spec (h : SbInv sb) (m : List Mbuf) :
    SbInv (sbappend sb m) ∧ (sbappend sb m).bytes = sb.bytes ++ chainBytes m := by
  unfold sbappend
  split
  · exact ⟨h, by simp⟩
  · split
    · exact sbappendrecord_spec h m
    · exact sbcompress_spec h m

/-! ### `sb_cc`, whatever the buffer holds -/

theorem sbCc_sbcompressLoop (eor : Bool) (m : List Mbuf) :
    (sbcompressLoop record eor c m).2.2.sbCc = c.sbCc + BitVec.ofNat 32 (chainLen m) := by
  induction m generalizing record eor c with
  | nil => simp [sbcompressLoop]
  | cons x rest ih =>
      rw [sbcompressLoop, chainLen_cons, BitVec.ofNat_add, ← BitVec.add_assoc]
      split
      · rename_i hempty
        rw [ih, hempty.1, BitVec.add_zero]
      · split
        · split
          · rw [ih]
          · rw [ih]
            rfl
        · rw [ih]
          rfl

theorem sbCc_sbcompress (sb : SockBuf) (m : List Mbuf) :
    (sbcompress sb m).sbCc = sb.sbCc + BitVec.ofNat 32 (chainLen m) :=
  sbCc_sbcompressLoop false m

theorem sbCc_sbappendrecord (sb : SockBuf) (m : List Mbuf) :
    (sbappendrecord sb m).sbCc = sb.sbCc + BitVec.ofNat 32 (chainLen m) := by
  match m with
  | [] => simp [sbappendrecord]
  | [x] => simp [sbappendrecord, sballoc]
  | x :: y :: rest =>
      have hxy : ∀ y' : Mbuf, y'.mLen = y.mLen → sb.sbCc + BitVec.ofNat 32 x.mLen +
          BitVec.ofNat 32 (chainLen (y' :: rest)) = sb.sbCc + BitVec.ofNat 32 (chainLen (x :: y :: rest)) := by
        intro y' hy'
        simp only [chainLen_cons, hy', BitVec.ofNat_add, BitVec.add_assoc]
      rw [sbappendrecord]
      split
      · rw [sbCc_sbcompress]
        exact hxy _ rfl
      · rw [sbCc_sbcompress]
        exact hxy _ rfl

theorem sbappend_cons (sb : SockBuf) (x : Mbuf) (rest : List Mbuf) : sbappend sb (x :: rest) =
    if (sb.sbMb.getLastD []).any Mbuf.mEor then sbappendrecord sb (x :: rest) else sbcompress sb (x :: rest) := rfl

/-- `sbappend` counts the bytes of the chain. -/
theorem sbCc_sbappend (sb : SockBuf) (m : List Mbuf) :
    (sbappend sb m).sbCc = sb.sbCc + BitVec.ofNat 32 (chainLen m) := by
  match m with
  | [] => simp [sbappend]
  | x :: rest =>
      rw [sbappend_cons]
      split
      · exact sbCc_sbappendrecord sb _
      · exact sbCc_sbcompress sb _

theorem sbHiwat_sbappendrecord (sb : SockBuf) (m : List Mbuf) : (sbappendrecord sb m).sbHiwat = sb.sbHiwat := by
  match m with
  | [] => rfl
  | [x] => rfl
  | x :: y :: rest =>
      rw [sbappendrecord]
      split
      · rfl
      · rfl

theorem sbHiwat_sbappend (sb : SockBuf) (m : List Mbuf) : (sbappend sb m).sbHiwat = sb.sbHiwat := by
  match m with
  | [] => rfl
  | x :: rest =>
      rw [sbappend_cons]
      split
      · exact sbHiwat_sbappendrecord sb _
      · rfl

/-- `sbappendaddr` appends the address, the control data and the data, or nothing. -/
theorem sbappendaddr_spec {asa : Sockaddr} {m0 control : List Mbuf} {mget : Bool} {ret : ℤ}
    (h : SbInv sb) (hcall : sbappendaddr sb asa m0 control mget = some (ret, sb')) :
    SbInv sb' ∧ sb'.bytes =
      if ret = 0 then sb.bytes
      else sb.bytes ++ (asa.1 ++ chainBytes control ++ chainBytes m0) := by
  unfold sbappendaddr at hcall
  split at hcall
  · cases hcall
  simp only at hcall
  split_ifs at hcall
  · obtain ⟨rfl, rfl⟩ := Prod.mk.inj (Option.some.inj hcall)
    exact ⟨h, by simp⟩
  · obtain ⟨rfl, rfl⟩ := Prod.mk.inj (Option.some.inj hcall)
    exact ⟨h, by simp⟩
  · obtain ⟨rfl, rfl⟩ := Prod.mk.inj (Option.some.inj hcall)
    exact ⟨h, by simp⟩
  · obtain ⟨rfl, rfl⟩ := Prod.mk.inj (Option.some.inj hcall)
    obtain ⟨hinv, hbytes⟩ := h.push (List.cons_ne_nil _ _) (h.tally.allocAll _)
    exact ⟨hinv, by rw [hbytes]; simp⟩

/-! ## Dropping -/

/-- One record of `sbdrop`: some bytes are gone, and the record is used up if more are to go. -/
theorem sbdropRecord_spec (m : List Mbuf) (h : Tally c (n + chainLen m) (s + chainSize m)) :
    ∃ k : ℕ, k ≤ chainLen m ∧ (sbdropRecord c len m).2.1 = len - k ∧ (k : ℤ) ≤ max len 0 ∧
      chainBytes (sbdropRecord c len m).2.2 = (chainBytes m).drop k ∧
      (0 < (sbdropRecord c len m).2.1 → (sbdropRecord c len m).2.2 = []) ∧
      Tally (sbdropRecord c len m).1 (n + chainLen (sbdropRecord c len m).2.2)
        (s + chainSize (sbdropRecord c len m).2.2) := by
  induction m generalizing c len with
  | nil => exact ⟨0, Nat.zero_le _, by simp [sbdropRecord], by simp, rfl, fun _ => rfl, h⟩
  | cons x rest ih =>
      rw [sbdropRecord]
      split
      · rename_i hlen
        exact ⟨0, Nat.zero_le _, by simp, by simp, rfl, fun hpos => absurd hpos (by simpa using hlen), h⟩
      split
      · -- the rest of the length is inside the mbuf
        rename_i hpos hlong
        lift len to ℕ using by omega
        have hlt : len < x.mLen := by exact_mod_cast hlong
        have hdrop : Mbuf.mLen { x with mData := x.mData + len, bytes := x.bytes.drop len }
            = x.mLen - len := List.length_drop
        refine ⟨len, ?_, by simp, by simp, ?_, fun h0 => absurd h0 (lt_irrefl 0), ?_, ?_⟩
        · rw [chainLen_cons]
          omega
        · rw [chainBytes_cons, chainBytes_cons, Int.toNat_natCast,
            List.drop_append_of_le_length (le_of_lt hlt)]
        · have hsum : n + chainLen (x :: rest) = n + (x.mLen - len + chainLen rest) + len := by
            rw [chainLen_cons]
            omega
          simp only [Int.toNat_natCast, BitVec.ofInt_natCast]
          rw [h.cc, hsum, BitVec.ofNat_add _ len, BitVec.add_sub_cancel, chainLen_cons, hdrop]
        · exact h.mbcnt
      · -- the mbuf is freed
        rename_i hpos hshort
        have hfree : Tally (sbfree c x) (n + chainLen rest) (s + chainSize rest) := by
          refine Tally.free (h.congr ?_ ?_)
          · rw [chainLen_cons]
            omega
          · rw [chainSize_cons]
            omega
        obtain ⟨k, hk, hlen, hle, hbytes, hend, ht⟩ := @ih (sbfree c x) (len - x.mLen) hfree
        refine ⟨x.mLen + k, ?_, ?_, ?_, ?_, hend, ht⟩
        · rw [chainLen_cons]
          omega
        · rw [hlen]
          push_cast
          omega
        · push_cast
          omega
        · rw [hbytes, chainBytes_cons, Mbuf.mLen, List.drop_length_add_append]

/-- No more is dropped from a record than it holds. -/
theorem sbdropRecord_left (c : SbCount) (len : ℤ) (m : List Mbuf) : len ≤ (sbdropRecord c len m).2.1 + chainLen m := by
  induction m generalizing c len with
  | nil => simp [sbdropRecord]
  | cons x rest ih =>
      rw [sbdropRecord, chainLen_cons]
      push_cast
      split_ifs
      · dsimp only
        omega
      · dsimp only
        omega
      · have hrest := ih (sbfree c x) (len - x.mLen)
        omega

theorem sbdropLoop_left {c c' : SbCount} {m m' : List Mbuf} {next next' : List (List Mbuf)}
    (h : sbdropLoop c len m next = some (c', m', next')) : len ≤ chainLen m + chainLen next.flatten := by
  induction next generalizing c len m with
  | nil =>
      have hleft := sbdropRecord_left c len m
      rw [sbdropLoop] at h
      generalize sbdropRecord c len m = q at hleft h
      obtain ⟨c₁, len₁, m₁⟩ := q
      dsimp only at hleft h
      split_ifs at h
      simp only [List.flatten_nil, chainLen_nil]
      omega
  | cons r next ih =>
      have hleft := sbdropRecord_left c len m
      rw [sbdropLoop] at h
      generalize sbdropRecord c len m = q at hleft h
      obtain ⟨c₁, len₁, m₁⟩ := q
      dsimp only at hleft h
      rw [List.flatten_cons, chainLen_append]
      split_ifs at h
      · omega
      · have hrest := ih h
        omega

/-- The loop of `sbdrop` takes the length off the front of the records. -/
theorem sbdropLoop_spec (next : List (List Mbuf)) (m : List Mbuf)
    (h : Tally c (chainLen (m ++ next.flatten)) (chainSize (m ++ next.flatten)))
    (hlen : len ≤ chainLen (m ++ next.flatten)) :
    ∃ c' m' next', sbdropLoop c len m next = some (c', m', next') ∧
      Tally c' (chainLen (m' ++ next'.flatten)) (chainSize (m' ++ next'.flatten)) ∧
      chainBytes (m' ++ next'.flatten) = (chainBytes (m ++ next.flatten)).drop len.toNat ∧
      next' <:+ next := by
  induction next generalizing c len m with
  | nil =>
      simp only [List.flatten_nil, List.append_nil] at h hlen ⊢
      obtain ⟨k, hk, hrest, hle, hbytes, hend, ht⟩ :=
        @sbdropRecord_spec c 0 0 len m (h.congr (Nat.zero_add _) (Nat.zero_add _))
      rw [sbdropLoop]
      generalize sbdropRecord c len m = q at *
      obtain ⟨c₁, len₁, m₁⟩ := q
      simp only at *
      have hdone : len₁ ≤ 0 := by
        by_contra hpos
        -- all bytes are gone, and the length is at most that
        have hgone : chainBytes m₁ = [] := by rw [hend (not_le.mp hpos)]; rfl
        rw [hbytes, List.drop_eq_nil_iff, length_chainBytes] at hgone
        omega
      have hk' : k = len.toNat := by omega
      rw [if_pos hdone]
      refine ⟨c₁, m₁, [], rfl, ?_, ?_, List.suffix_refl _⟩
      · exact ht.congr (by simp) (by simp)
      · simpa [hk'] using hbytes
  | cons r next ih =>
      have hm : Tally c (chainLen (r :: next).flatten + chainLen m)
          (chainSize (r :: next).flatten + chainSize m) :=
        h.congr (by rw [chainLen_append, Nat.add_comm]) (by rw [chainSize_append, Nat.add_comm])
      obtain ⟨k, hk, hrest, hle, hbytes, hend, ht⟩ := sbdropRecord_spec m hm
      rw [sbdropLoop]
      generalize sbdropRecord c len m = q at *
      obtain ⟨c₁, len₁, m₁⟩ := q
      simp only at *
      by_cases hdone : len₁ ≤ 0
      · have hk' : k = len.toNat := by omega
        rw [if_pos hdone]
        refine ⟨c₁, m₁, r :: next, rfl, ?_, ?_, List.suffix_refl _⟩
        · exact ht.congr (by rw [chainLen_append, Nat.add_comm])
            (by rw [chainSize_append, Nat.add_comm])
        · rw [chainBytes_append, chainBytes_append, hbytes, hk',
            List.drop_append_of_le_length (by rw [length_chainBytes]; omega)]
      · -- the record is used up, and the next one follows
        rw [if_neg hdone]
        obtain rfl := hend (not_le.mp hdone)
        have hall : k = chainLen m := by
          have hlen' := List.drop_eq_nil_iff.mp hbytes.symm
          rw [length_chainBytes] at hlen'
          omega
        rw [chainLen_append, List.flatten_cons] at hlen
        have hlen₁ : len₁ ≤ chainLen (r ++ next.flatten) := by
          push_cast at hlen
          omega
        obtain ⟨c', m', next', hloop, ht', hbytes', hsuf⟩ := ih r (ht.congr rfl rfl) hlen₁
        refine ⟨c', m', next', hloop, ht', ?_, hsuf.trans (List.suffix_cons r next)⟩
        have hsplit : len.toNat = (chainBytes m).length + len₁.toNat := by
          rw [length_chainBytes]
          omega
        rw [hbytes', chainBytes_append m, hsplit, List.drop_length_add_append, List.flatten_cons]

/-- Freeing mbufs without bytes changes no bytes. -/
theorem sbdropEmpty_spec (m : List Mbuf) (h : Tally c (n + chainLen m) (s + chainSize m)) :
    Tally (sbdropEmpty c m).1 (n + chainLen (sbdropEmpty c m).2)
        (s + chainSize (sbdropEmpty c m).2) ∧
      chainBytes (sbdropEmpty c m).2 = chainBytes m ∧
      (chainLen m = 0 → (sbdropEmpty c m).2 = []) := by
  induction m generalizing c with
  | nil => exact ⟨h, rfl, fun _ => rfl⟩
  | cons x rest ih =>
      rw [sbdropEmpty]
      split
      · rename_i hzero
        have hbytes : x.bytes = [] := List.length_eq_zero_iff.mp hzero
        obtain ⟨ht, hb, hnil⟩ := ih (Tally.free (x := x) (h.congr (by rw [chainLen_cons]; omega)
          (by rw [chainSize_cons]; omega)))
        refine ⟨ht, by rw [hb, chainBytes_cons, hbytes, List.nil_append], fun h0 => hnil ?_⟩
        rw [chainLen_cons] at h0
        omega
      · rename_i hsome
        refine ⟨h, rfl, fun h0 => absurd ?_ hsome⟩
        rw [chainLen_cons] at h0
        omega

/-- `sbdrop` returns and takes the length off the front, if it is at most `sb_cc`. If that is all there
is, the first record is gone. -/
theorem sbdrop_spec (h : SbInv sb) (hlen : len ≤ sb.sbCc.toNat) :
    ∃ sb', sbdrop sb len = some sb' ∧ SbInv sb' ∧ sb'.bytes = sb.bytes.drop len.toNat ∧
      (sb.bytes.length ≤ len.toNat → sb'.sbMb <:+ sb.sbMb.tail) ∧ sb'.sbLock = sb.sbLock := by
  have hflat : sb.sbMb.headD [] ++ sb.sbMb.tail.flatten = sb.sbMb.flatten := by
    cases sb.sbMb <;> rfl
  have hle : sb.sbCc.toNat ≤ chainLen sb.sbMb.flatten := by
    rw [h.tally.cc, BitVec.toNat_ofNat]
    exact Nat.mod_le _ _
  have htally : Tally sb.toSbCount (chainLen (sb.sbMb.headD [] ++ sb.sbMb.tail.flatten))
      (chainSize (sb.sbMb.headD [] ++ sb.sbMb.tail.flatten)) := hflat ▸ h.tally
  have hlen' : len ≤ chainLen (sb.sbMb.headD [] ++ sb.sbMb.tail.flatten) := by
    rw [hflat]
    omega
  obtain ⟨c, m, next, hloop, ht, hbytes, hsuf⟩ := sbdropLoop_spec _ _ htally hlen'
  rw [hflat] at hbytes
  have ht₀ : Tally c (chainLen next.flatten + chainLen m) (chainSize next.flatten + chainSize m) :=
    ht.congr (by rw [chainLen_append, Nat.add_comm]) (by rw [chainSize_append, Nat.add_comm])
  obtain ⟨ht', hb', hnil⟩ := sbdropEmpty_spec m ht₀
  have hmb : (if (sbdropEmpty c m).2 = [] then next else (sbdropEmpty c m).2 :: next).flatten
      = (sbdropEmpty c m).2 ++ next.flatten := by
    split
    · rename_i hnil
      simp [hnil]
    · simp
  refine ⟨{ sb with
    toSbCount := (sbdropEmpty c m).1
    sbMb := if (sbdropEmpty c m).2 = [] then next else (sbdropEmpty c m).2 :: next },
    by rw [sbdrop, hloop]; rfl, ⟨?_, fun r hr => ?_⟩, ?_, fun hall => ?_, rfl⟩
  · simp only [hmb]
    exact ht'.congr (by rw [chainLen_append, Nat.add_comm]) (by rw [chainSize_append, Nat.add_comm])
  · simp only at hr
    have hrest : ∀ q ∈ next, q ≠ [] := fun q hq =>
      h.records q (List.mem_of_mem_tail (hsuf.subset hq))
    split at hr
    · exact hrest r hr
    · rename_i hne
      rcases List.mem_cons.mp hr with rfl | hr
      · exact hne
      · exact hrest r hr
  · simp only [SockBuf.bytes, hmb]
    rw [chainBytes_append, hb', ← chainBytes_append, hbytes]
  · have hgone : chainLen m = 0 := by
      have hlen₀ : (chainBytes (m ++ next.flatten)).length = 0 := by
        rw [hbytes, List.length_drop]
        unfold SockBuf.bytes at hall
        omega
      rw [length_chainBytes, chainLen_append] at hlen₀
      omega
    simp only [hnil hgone, if_true]
    exact hsuf

/-- `sbdrop` panics if it is to drop more than there is. -/
theorem sbdrop_le (h : sbdrop sb len = some sb') : len ≤ sb.bytes.length := by
  obtain ⟨⟨c, m, next⟩, hloop, -⟩ := Option.bind_eq_some_iff.mp h
  have hleft := sbdropLoop_left hloop
  have hflat : chainLen (sb.sbMb.headD []) + chainLen sb.sbMb.tail.flatten = sb.bytes.length := by
    rw [SockBuf.bytes, length_chainBytes, ← chainLen_append]
    cases sb.sbMb <;> rfl
  omega

/-- What `sbdrop` leaves behind. -/
theorem SbInv.sbdrop (h : SbInv sb) (hsmall : sb.bytes.length < 2 ^ 32) (hdrop : Net.sbdrop sb len = some sb') :
    SbInv sb' ∧ sb'.bytes = sb.bytes.drop len.toNat := by
  have hle := sbdrop_le hdrop
  have hcc : sb.sbCc.toNat = sb.bytes.length := by
    rw [SockBuf.bytes, length_chainBytes] at hsmall ⊢
    rw [h.tally.cc, BitVec.toNat_ofNat, Nat.mod_eq_of_lt hsmall]
  have hlen : len ≤ sb.sbCc.toNat := by omega
  obtain ⟨t, ht, hinv, hbytes, -⟩ := sbdrop_spec h hlen
  obtain rfl : t = sb' := Option.some.inj (ht.symm.trans hdrop)
  exact ⟨hinv, hbytes⟩

/-- `sbdroprecord` takes the first record off the front. -/
theorem sbdroprecord_spec (h : SbInv sb) :
    SbInv (sbdroprecord sb) ∧
      (sbdroprecord sb).bytes = sb.bytes.drop (chainLen (sb.sbMb.headD [])) := by
  unfold sbdroprecord
  split
  · rename_i hnil
    exact ⟨h, by simp [hnil]⟩
  · rename_i m next hmb
    have ht : Tally sb.toSbCount (chainLen next.flatten + chainLen m)
        (chainSize next.flatten + chainSize m) :=
      h.tally.congr (by simp [hmb]; omega) (by simp [hmb]; omega)
    refine ⟨⟨Tally.freeAll m ht, fun r hr => h.records r (by simp [hmb, hr])⟩, ?_⟩
    simp only [SockBuf.bytes, hmb, List.headD_cons, List.flatten_cons]
    rw [chainBytes_append, ← length_chainBytes, List.drop_left]

theorem sbflushLoop_mbcnt (fuel : ℕ) (hloop : sbflushLoop fuel sb = some sb') :
    sb'.sbMbcnt = 0 := by
  induction fuel generalizing sb with
  | zero => cases hloop
  | succ fuel ih =>
      rw [sbflushLoop] at hloop
      split at hloop
      · rename_i hzero
        obtain rfl := Option.some.inj hloop
        exact hzero
      · obtain ⟨sb₂, -, hloop⟩ := Option.bind_eq_some_iff.mp hloop
        exact ih hloop

/-- `sbflush` leaves nothing. -/
theorem sbflush_spec (hcall : sbflush sb = some sb') : SbInv sb' ∧ sb'.bytes = [] := by
  unfold sbflush at hcall
  split at hcall
  · cases hcall
  obtain ⟨sb₁, hloop, hrest⟩ := Option.bind_eq_some_iff.mp hcall
  split at hrest
  · cases hrest
  rename_i hempty
  obtain rfl := Option.some.inj hrest
  rw [not_or, not_not, not_not] at hempty
  obtain ⟨hcc, hmb⟩ := hempty
  refine ⟨⟨⟨?_, ?_⟩, by simp [hmb]⟩, by simp [SockBuf.bytes, hmb]⟩
  · rw [hcc, hmb]
    rfl
  · rw [sbflushLoop_mbcnt _ hloop, hmb]
    rfl

/-- A buffer of size 0 has no records. -/
theorem SbInv.eq_nil (h : SbInv sb) (hsize : chainSize sb.sbMb.flatten = 0) : sb.sbMb = [] := by
  cases hmb : sb.sbMb with
  | nil => rfl
  | cons r next =>
      have hr := h.records r (by rw [hmb]; exact List.mem_cons_self)
      obtain ⟨x, r, rfl⟩ := List.exists_cons_of_ne_nil hr
      have hpos := size_pos x
      rw [hmb, List.flatten_cons, List.cons_append, chainSize_cons] at hsize
      omega

theorem length_le_flatten {l : List (List Mbuf)} (h : ∀ r ∈ l, r ≠ []) :
    l.length ≤ l.flatten.length := by
  induction l with
  | nil => exact Nat.zero_le _
  | cons r l ih =>
      have hr := List.length_pos_iff.mpr (h r List.mem_cons_self)
      have hl := ih fun q hq => h q (List.mem_cons_of_mem r hq)
      rw [List.flatten_cons, List.length_append, List.length_cons]
      omega

/-- Each turn of the loop of `sbflush` frees at least one record. -/
theorem sbflushLoop_returns (fuel : ℕ) (h : SbInv sb) (hfuel : sb.sbMb.length < fuel)
    (hcc : chainLen sb.sbMb.flatten < 2 ^ 31) (hmbcnt : chainSize sb.sbMb.flatten < 2 ^ 32) :
    ∃ sb', sbflushLoop fuel sb = some sb' ∧ sb'.sbCc = 0 ∧ sb'.sbMb = [] := by
  induction fuel generalizing sb with
  | zero => exact absurd hfuel (Nat.not_lt_zero _)
  | succ fuel ih =>
      rw [sbflushLoop]
      split
      · rename_i hzero
        have hnil : sb.sbMb = [] := by
          refine h.eq_nil ?_
          have hm := congrArg BitVec.toNat (hzero.symm.trans h.tally.mbcnt)
          rw [BitVec.toNat_ofNat, Nat.mod_eq_of_lt hmbcnt] at hm
          exact hm.symm
        refine ⟨sb, rfl, ?_, hnil⟩
        rw [h.tally.cc, hnil]
        rfl
      · rename_i hne
        have hnat : sb.sbCc.toNat = chainLen sb.sbMb.flatten := by
          rw [h.tally.cc, BitVec.toNat_ofNat, Nat.mod_eq_of_lt (by omega)]
        have hint : sb.sbCc.toInt = (chainLen sb.sbMb.flatten : ℤ) := by
          rw [BitVec.toInt_eq_toNat_of_lt (by omega), hnat]
        have hall : sb.bytes.length = chainLen sb.sbMb.flatten := length_chainBytes _
        obtain ⟨sb', hdrop, hinv, hbytes, hsuf, -⟩ := sbdrop_spec h
          (show sb.sbCc.toInt ≤ sb.sbCc.toNat by rw [hint, hnat])
        have hrest := hsuf (by rw [hint, hall, Int.toNat_natCast])
        have hpos : sb.sbMb ≠ [] := fun hnil => hne (by rw [h.tally.mbcnt, hnil]; rfl)
        have hshort : sb'.sbMb.length < sb.sbMb.length := by
          have hle := hrest.length_le
          have := List.length_pos_iff.mpr hpos
          rw [List.length_tail] at hle
          omega
        have hsize : chainSize sb'.sbMb.flatten ≤ chainSize sb.sbMb.flatten := by
          obtain ⟨pre, hpre⟩ := hrest.trans (List.tail_suffix _)
          rw [← hpre, List.flatten_append, chainSize_append]
          exact Nat.le_add_left _ _
        have hcc' : chainLen sb'.sbMb.flatten = 0 := by
          have hlen : sb'.bytes.length = 0 := by
            rw [hbytes, List.length_drop, hint, hall, Int.toNat_natCast, Nat.sub_self]
          rw [← length_chainBytes]
          exact hlen
        obtain ⟨sb'', hloop, hend⟩ := ih hinv (by omega) (by omega) (by omega)
        exact ⟨sb'', by rw [hdrop]; exact hloop, hend⟩

/-- `sbflush` returns from a buffer that is not locked. -/
theorem sbflush_returns (h : SbInv sb) (hlock : sb.sbLock = false)
    (hcc : chainLen sb.sbMb.flatten < 2 ^ 31) (hmbcnt : chainSize sb.sbMb.flatten < 2 ^ 32) :
    ∃ sb', sbflush sb = some sb' := by
  have hlen := length_le_flatten h.records
  obtain ⟨sb', hloop, hend⟩ := sbflushLoop_returns (sb.sbMb.flatten.length + 2) h (by omega) hcc
    hmbcnt
  refine ⟨sb', ?_⟩
  unfold sbflush
  rw [hlock, hloop]
  simp [hend]

/-! ## Main results -/

/-- What every call keeps. -/
structure LogInv (s : SbLog) : Prop where
  inv : SbInv s.sb
  bytes : s.sb.bytes = s.appended.drop s.dropped
  dropped : s.dropped ≤ s.appended.length

/-- Bytes behind the others. -/
theorem LogInv.push {s : SbLog} (h : LogInv s) {sb : SockBuf} {new : List Byte} (hinv : SbInv sb)
    (hbytes : sb.bytes = s.sb.bytes ++ new) :
    LogInv { s with sb := sb, appended := s.appended ++ new } := by
  refine ⟨hinv, ?_, ?_⟩
  · rw [hbytes, h.bytes, List.drop_append_of_le_length h.dropped]
  · simp only [List.length_append]
    exact Nat.le_add_right_of_le h.dropped

/-- Bytes off the front. -/
theorem LogInv.pull {s : SbLog} (h : LogInv s) {sb : SockBuf} {k : ℕ} (hinv : SbInv sb)
    (hbytes : sb.bytes = s.sb.bytes.drop k) (hk : k ≤ s.sb.bytes.length) :
    LogInv { s with sb := sb, dropped := s.dropped + k } := by
  refine ⟨hinv, ?_, ?_⟩
  · rw [hbytes, h.bytes, List.drop_drop]
  · rw [h.bytes, List.length_drop] at hk
    have := h.dropped
    simp only
    omega

/-- **One call keeps counters and bytes in step.** -/
theorem LogInv.call {s s' : SbLog} {call : SbCall} (h : LogInv s) (hok : SbCall.Fits s call)
    (hcall : s.call call = some s') : LogInv s' := by
  cases call with
  | sbappend m =>
      obtain rfl := Option.some.inj hcall
      obtain ⟨hinv, hbytes⟩ := sbappend_spec h.inv m
      exact h.push hinv hbytes
  | sbappendrecord m =>
      obtain rfl := Option.some.inj hcall
      obtain ⟨hinv, hbytes⟩ := sbappendrecord_spec h.inv m
      exact h.push hinv hbytes
  | sbappendaddr asa m0 control mget =>
      obtain ⟨⟨ret, sb⟩, hadd, hs'⟩ := Option.bind_eq_some_iff.mp hcall
      obtain rfl := Option.some.inj hs'
      obtain ⟨hinv, hbytes⟩ := sbappendaddr_spec h.inv hadd
      by_cases hret : ret = 0
      · simp only [if_pos hret] at hbytes ⊢
        have hsame : sb.bytes = s.sb.bytes ++ [] := by rw [hbytes, List.append_nil]
        simpa using h.push hinv hsame
      · simp only [if_neg hret] at hbytes ⊢
        exact h.push hinv hbytes
  | sbdrop len =>
      obtain ⟨sb, hdrop, rfl⟩ := Option.map_eq_some_iff.mp hcall
      obtain ⟨sb', hdrop', hinv, hbytes, -, -⟩ := sbdrop_spec h.inv hok
      obtain rfl : sb' = sb := Option.some.inj (hdrop'.symm.trans hdrop)
      refine h.pull hinv hbytes ?_
      have hle : s.sb.sbCc.toNat ≤ chainLen s.sb.sbMb.flatten := by
        rw [h.inv.tally.cc, BitVec.toNat_ofNat]
        exact Nat.mod_le _ _
      rw [SockBuf.bytes, length_chainBytes]
      simp only [SbCall.Fits] at hok
      omega
  | sbdroprecord =>
      obtain rfl := Option.some.inj hcall
      obtain ⟨hinv, hbytes⟩ := sbdroprecord_spec h.inv
      refine h.pull hinv hbytes ?_
      rw [SockBuf.bytes, length_chainBytes]
      cases s.sb.sbMb <;> simp
  | sbflush =>
      obtain ⟨sb, hflush, rfl⟩ := Option.map_eq_some_iff.mp hcall
      obtain ⟨hinv, hbytes⟩ := sbflush_spec hflush
      refine h.pull hinv ?_ (le_refl _)
      rw [hbytes, List.drop_length]

end

/-- **Counters and bytes are right in every state that a socket buffer reaches.** -/
theorem sbRight_of_reach {hiwat mbmax : BitVec 32} {lock : Bool} {s : SbLog}
    (h : Reach SbLog.call SbCall.Fits (emptySb hiwat mbmax lock) s) : SbRight s := by
  have hinv : LogInv s := h.invariant ⟨⟨⟨rfl, rfl⟩, by simp [emptySb]⟩, rfl, le_refl _⟩
    fun _ _ _ hinv hok hcall => hinv.call hok hcall
  exact ⟨hinv.inv.tally.cc, hinv.inv.tally.mbcnt, hinv.bytes⟩

/-- An mbuf with some bytes at the start of its data. -/
def dataMbuf (bytes : List Byte) : Mbuf where
  mType := 1
  mExt := false
  mEor := false
  mPkthdr := none
  mData := 0
  bytes := bytes

/-- Two chains are appended, the second one is copied into the mbuf of the first, and the first three
bytes are dropped. -/
theorem sbRight_of_reach_compress :
    ∃ s, runCalls SbLog.call (emptySb 8192 16384 false)
        [.sbappend [dataMbuf [1, 2]], .sbappend [dataMbuf [3], dataMbuf [4, 5]], .sbdrop 3] = some s ∧
      s.sb.sbMb.flatten.length = 1 ∧ s.sb.bytes = [4, 5] ∧ SbRight s := by
  set calls : List SbCall :=
    [.sbappend [dataMbuf [1, 2]], .sbappend [dataMbuf [3], dataMbuf [4, 5]], .sbdrop 3] with hcalls
  have hrun : (runCalls SbLog.call (emptySb 8192 16384 false) calls).map
      (fun s => (s.sb.sbMb.flatten.length, s.sb.bytes)) = some (1, [4, 5]) := by
    decide +kernel
  obtain ⟨s, hs, hst⟩ := Option.map_eq_some_iff.mp hrun
  obtain ⟨hlen, hbytes⟩ := Prod.mk.inj hst
  exact ⟨s, hs, hlen, hbytes,
    sbRight_of_reach (Reach.start.of_runCalls calls (by decide +kernel) hs)⟩

end Shaunos.Net
