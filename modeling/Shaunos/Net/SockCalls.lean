import Shaunos.Net.PcbConnect

/-!
# The calls on sockets

Reference: `Kernel/net/uipc_syscall.c` (`kbind`, `kaccept`, `kconnect`), `Kernel/mbuf.c` (`m_get`),
`Kernel/netinet/in_pcb.c` (`in_pcbbind`, `in_pcbconnect`), `Include/kernel/sys/socketval.h`.

`kbind` and `kconnect` copy the address into an mbuf that `m_get` has just cleared. The copy is as long as the caller
says, and `m_len` stays 0.

* `namRight_iff` — when the mbuf is as the layers below expect it;
* `inPcbbind_bindNam`, `inPcbconnect_connectNam` — what they make of it.
-/

namespace Shaunos.Net

/-! ## The code -/

/-- `struct socket`, as far as the calls test it. -/
structure SockState where
  soError : BitVec 16
  ssIsConnecting : Bool
  ssCantRcvMore : Bool
  ssNbio : Bool
  /-- `so_options & SO_ACCEPTCONN` -/
  soAcceptConn : Bool
  soQlen : ℤ

/-- What is behind a descriptor. -/
inductive SockFile where
  | null
  /-- Not `S_ISSOCK`. -/
  | other
  | sock (so : SockState)

/-- An mbuf with an address: `m_len`, the bytes from `mtod` on, and how many of them were written. -/
structure AddrMbuf where
  mLen : ℤ
  mDat : ℕ → Byte
  wrote : ℕ

/-- `m_get`, when there is memory. `past` is what is behind the mbuf. -/
def AddrMbuf.get (past : ℕ → Byte) : AddrMbuf where
  mLen := 0
  mDat := fun k => if k < mLEN then 0 else past k
  wrote := 0

/-- `memcpy` to `mtod`, from a place that does not overlap it. -/
def AddrMbuf.memcpy (m : AddrMbuf) (addr : ℕ → Byte) (len : BitVec 32) : AddrMbuf :=
  { m with mDat := fun k => if k < len.toNat then addr k else m.mDat k, wrote := len.toNat }

/-- `addr->sa_len = len`. -/
def setSaLen (addr : ℕ → Byte) (len : BitVec 32) : ℕ → Byte := Function.update addr 0 (len.setWidth 8)

/-- `kbind`, up to the call of `sobind`: an error, or the socket and the mbuf. `mget` is what `m_get` finds. -/
def bindNam (file : SockFile) (mget : Option (ℕ → Byte)) (addr : ℕ → Byte) (len : BitVec 32) :
    Except ℤ (SockState × AddrMbuf) :=
  match file, mget with
  | .null, _ => .error (-eBADF)
  | .other, _ => .error (-eNOTSOCK)
  | .sock _, none => .error (-eNOBUFS)
  | .sock so, some past => .ok (so, (AddrMbuf.get past).memcpy addr len)

/-- `kconnect`, up to the call of `soconnect`. -/
def connectNam (file : SockFile) (mget : Option (ℕ → Byte)) (addr : ℕ → Byte) (len : BitVec 32) :
    Except ℤ (SockState × AddrMbuf) :=
  match file with
  | .null => .error (-eBADF)
  | .other => .error (-eNOTSOCK)
  | .sock so =>
      if so.ssNbio ∧ so.ssIsConnecting then .error (-eALREADY)
      else
        match mget with
        | none => .error (-eNOBUFS)
        | some past => .ok (so, (AddrMbuf.get past).memcpy (setSaLen addr len) len)

/-- The loop of `kconnect`. Each sleep ends with the value of `sbsleep` and the socket as others have left it; `none`
if it still sleeps. -/
def connectWait : List (ℤ × SockState) → (ret : ℤ) → SockState → Option (ℤ × SockState)
  | wakes, ret, so =>
      if so.ssIsConnecting ∧ so.soError = 0 then
        match wakes with
        | [] => none
        | (ret, so) :: wakes => if ret < 0 then some (ret, so) else connectWait wakes ret so
      else some (ret, so)

/-- `kconnect`, from `soconnect` on, which has returned `ret`. -/
def connectEnd (wakes : List (ℤ × SockState)) (ret : ℤ) (so : SockState) : Option (ℤ × SockState) :=
  if ret < 0 then some (ret, { so with ssIsConnecting := false })
  else if so.ssNbio ∧ so.ssIsConnecting then some (-eINPROGRESS, so)
  else
    (connectWait wakes ret so).map fun (ret, so) =>
      if ret = 0 then (so.soError.toNat, { so with soError := 0, ssIsConnecting := false })
      else (ret, { so with ssIsConnecting := false })

/-- `kconnect`, on a socket. -/
def kconnect (soconnect : SockState → AddrMbuf → ℤ × SockState) (wakes : List (ℤ × SockState)) (so : SockState)
    (mget : Option (ℕ → Byte)) (addr : ℕ → Byte) (len : BitVec 32) : Option (ℤ × SockState) :=
  match connectNam (.sock so) mget addr len with
  | .error e => some (e, so)
  | .ok (so, nam) =>
      let (ret, so) := soconnect so nam
      connectEnd wakes ret so

/-- The loop of `kaccept`: the value of a sleep that failed, if any, and the socket. -/
def acceptWait : List (ℤ × SockState) → SockState → Option (Option ℤ × SockState)
  | wakes, so =>
      if so.soQlen = 0 ∧ so.soError = 0 then
        if so.ssCantRcvMore then some (none, { so with soError := BitVec.ofInt 16 (-eCONNABORTED) })
        else
          match wakes with
          | [] => none
          | (retval, so) :: wakes => if retval < 0 then some (some retval, so) else acceptWait wakes so
      else some (none, so)

/-- `kaccept` on a socket, up to where it takes a connection from the queue: the error, or no error. -/
def acceptStart (wakes : List (ℤ × SockState)) (so : SockState) : Option (Option ℤ × SockState) :=
  if so.soAcceptConn = false then some (some (-eINVAL), so)
  else if so.ssNbio ∧ so.soQlen = 0 then some (some (-eWOULDBLOCK), so)
  else
    (acceptWait wakes so).map fun
      | (some retval, so) => (some retval, so)
      | (none, so) =>
          if so.soError ≠ 0 then (some so.soError.toNat, { so with soError := 0 }) else (none, so)

/-- `mtod(nam, struct sockaddr_in *)`. -/
def AddrMbuf.sin (m : AddrMbuf) : SockaddrIn where
  sinLen := m.mDat 0
  sinFamily := m.mDat 1
  sinPort := m.mDat 3 ++ m.mDat 2
  sinAddr := m.mDat 7 ++ m.mDat 6 ++ m.mDat 5 ++ m.mDat 4

/-- The mbuf, as `in_pcbbind` and `in_pcbconnect` read it. -/
def AddrMbuf.nam (m : AddrMbuf) : Nam := ⟨m.mLen, m.sin⟩

/-! ## The address -/

/-- The mbuf carries the length and the bytes of the address, and an address that does not fit is refused. -/
structure NamRight (addr : ℕ → Byte) (len : BitVec 32) (r : Except ℤ (SockState × AddrMbuf)) : Prop where
  mLen : len.toNat ≤ mLEN → ∀ so nam, r = .ok (so, nam) → nam.mLen = len.toNat
  mDat : len.toNat ≤ mLEN → ∀ so nam, r = .ok (so, nam) → ∀ k < len.toNat, nam.mDat k = addr k
  refused : mLEN < len.toNat → ∃ e < 0, r = .error e
  within : ∀ so nam, r = .ok (so, nam) → nam.wrote ≤ mLEN

variable {so : SockState} {file : SockFile} {mget : Option (ℕ → Byte)} {addr past : ℕ → Byte} {len : BitVec 32}
  {nam : AddrMbuf} {e : ℤ}

theorem NamRight.of_error (he : e < 0) : NamRight addr len (.error e) where
  mLen _ _ _ hok := nomatch hok
  mDat _ _ _ hok := nomatch hok
  refused _ := ⟨e, he, rfl⟩
  within _ _ hok := nomatch hok

/-- An mbuf that `m_get` has just cleared is right for no length but 0. -/
theorem namRight_memcpy : NamRight addr len (.ok (so, (AddrMbuf.get past).memcpy addr len)) ↔ len = 0 := by
  constructor
  · intro h
    by_cases hlen : len.toNat ≤ mLEN
    · have hzero : (0 : ℤ) = len.toNat := h.mLen hlen so _ rfl
      exact BitVec.eq_of_toNat_eq (by simp; omega)
    · obtain ⟨e, -, he⟩ := h.refused (by omega)
      exact nomatch he
  · rintro rfl
    have hlen : (0 : BitVec 32).toNat = 0 := rfl
    refine ⟨?_, ?_, ?_, ?_⟩
    · rintro - so' nam ⟨⟩
      rfl
    · rintro - so' nam ⟨⟩ k hk
      omega
    · intro h
      omega
    · rintro so' nam ⟨⟩
      exact Nat.zero_le _

/-- The address reaches the layers below as it should only if it is empty, or if nothing reaches them. -/
theorem namRight_iff (so : SockState) (mget : Option (ℕ → Byte)) (addr : ℕ → Byte) (len : BitVec 32) :
    (NamRight addr len (bindNam (.sock so) mget addr len) ↔ len = 0 ∨ mget = none) ∧
    (NamRight (setSaLen addr len) len (connectNam (.sock so) mget addr len) ↔
      len = 0 ∨ mget = none ∨ (so.ssNbio = true ∧ so.ssIsConnecting = true)) := by
  have hnobufs : -eNOBUFS < 0 := by decide
  have halready : -eALREADY < 0 := by decide
  constructor
  · cases mget with
    | none => simp [bindNam, NamRight.of_error hnobufs]
    | some past => simp [bindNam, namRight_memcpy]
  · by_cases hbusy : so.ssNbio = true ∧ so.ssIsConnecting = true
    · simp [connectNam, hbusy, NamRight.of_error halready]
    · cases mget with
      | none => simp [connectNam, if_neg hbusy, NamRight.of_error hnobufs]
      | some past =>
          simp only [connectNam, hbusy, if_false, reduceCtorEq, or_self, or_false]
          exact namRight_memcpy

/-- A `sockaddr_in` of 16 bytes, for 10.0.2.2 port 80. -/
def someAddr : ℕ → Byte := fun k => [16, 2, 0, 80, 10, 0, 2, 2].getD k 0

/-- A socket that nothing has happened to. -/
def freshSock : SockState := ⟨0, false, false, false, false, 0⟩

/-- `kbind` and `kconnect` with a whole `sockaddr_in` pass on an mbuf of length 0. -/
theorem namRight_sockaddr_in :
    ¬ NamRight someAddr 16 (bindNam (.sock freshSock) (some fun _ => 0) someAddr 16) ∧
    ¬ NamRight (setSaLen someAddr 16) 16 (connectNam (.sock freshSock) (some fun _ => 0) someAddr 16) := by
  constructor
  · intro h
    exact absurd (h.mLen (by decide) freshSock _ rfl) (by decide)
  · intro h
    exact absurd (h.mLen (by decide) freshSock _ rfl) (by decide)

/-! ## What becomes of it below -/

theorem mLen_bindNam (h : bindNam file mget addr len = .ok (so, nam)) : nam.mLen = 0 := by
  unfold bindNam at h
  split at h
  all_goals cases h
  rfl

theorem mLen_connectNam (h : connectNam file mget addr len = .ok (so, nam)) : nam.mLen = 0 := by
  unfold connectNam at h
  split at h
  all_goals try split at h
  all_goals try split at h
  all_goals cases h
  rfl

namespace PcbTable

variable {ι : Type*} [DecidableEq ι] (t : PcbTable ι) (i : ι)

/-- No address that `kbind` passes on binds a PCB. -/
theorem inPcbbind_bindNam (h : bindNam file mget addr len = .ok (so, nam)) (ifs : Interfaces) (stray : Option InAddr) :
    ∃ c < 0, t.inPcbbind ifs stray i (some nam.nam) = some (c, t) := by
  have hname : bindName ifs (t.inp i).inpSocket (some nam.nam) = .error eINVAL := by
    simp [bindName, AddrMbuf.nam, mLen_bindNam h]
  rw [inPcbbind]
  by_cases hifs : ifs.inIfaddr = false
  · exact ⟨-eADDRNOTAVAIL, by decide, by rw [if_pos hifs]⟩
  · by_cases hbound : (t.inp i).inpLport ≠ 0 ∨ (t.inp i).inpLaddr ≠ iNADDR_ANY
    · exact ⟨-eINVAL, by decide, by simp only [if_neg hifs, if_pos hbound]⟩
    · exact ⟨-eINVAL, by decide, by simp only [if_neg hifs, if_neg hbound, hname]⟩

/-- No address that `kconnect` passes on connects a PCB. -/
theorem inPcbconnect_connectNam (h : connectNam file mget addr len = .ok (so, nam)) (env : ConnectEnv) :
    t.inPcbconnect env i nam.nam = some (-eINVAL, t) := by
  have hzero : nam.nam.mLen = 0 := mLen_connectNam h
  have hlen : nam.nam.mLen ≠ 16 := by omega
  rw [inPcbconnect, if_pos hlen]

end PcbTable

end Shaunos.Net
