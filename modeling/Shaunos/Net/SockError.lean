import Shaunos.Net.SoSend
import Shaunos.Net.SockCalls
import Shaunos.Net.Tcp

/-!
# Errors of a socket

Reference: `Include/kernel/sys/socketval.h` (`so_error`), `Kernel/netinet/tcp_subr.c` (`tcp_drop`, `tcp_notify`),
`Kernel/netinet/tcp_input.c` (`tcp_input` at `TH_RST`), `Kernel/net/uipc_syscall.c` (`kaccept`, `kconnect`),
`Kernel/net/uipc_socket.c` (`sosend`, `soreceive`).

Errors are negative, and `so_error` has 16 bits and no sign: a call that takes an error returns a number that is not
negative. `sosend` does not clear the error either.

* `ErrCall.result_of_takes` — what a call returns that finds an error;
* `errorReaches_never` — no negative error comes out as it went in.
-/

namespace Shaunos.Net

/-! ## The code -/

def mtOOBDATA : ℤ := 15

/-- What stores an error in `so_error`. -/
inductive ErrRecord where
  /-- `tcp_drop`, with `t_softerror` and `errno`. -/
  | tcpDrop (tSofterror : BitVec 16) (errno : ℤ)
  /-- `tcp_input`, for a segment with `TH_RST`. -/
  | tcpInput (tState : TcpState)
  | tcpNotify (tState : TcpState) (tRxtshift tSofterror : BitVec 16) (error : ℤ)
  /-- `kaccept`, if the socket can receive no more. -/
  | kaccept

/-- The value that is stored, if there is one. -/
def ErrRecord.errno : ErrRecord → Option ℤ
  | tcpDrop tSofterror errno => some (if errno = -eTIMEDOUT ∧ tSofterror ≠ 0 then tSofterror.toInt else errno)
  | tcpInput .synReceived => some (-eCONNREFUSED)
  | tcpInput .established | tcpInput .finWait1 | tcpInput .finWait2 | tcpInput .closeWait => some (-eCONNRESET)
  | tcpInput _ => none
  | tcpNotify tState tRxtshift tSofterror error =>
      if tState = .established ∧ (error = -eHOSTUNREACH ∨ error = -eNETUNREACH ∨ error = -eHOSTDOWN) then none
      else if tState.num < TcpState.established.num ∧ 3 < tRxtshift.toInt ∧ tSofterror ≠ 0 then some error
      else none
  | kaccept => some (-eCONNABORTED)

/-- What `so_error` is then. -/
def ErrRecord.soError (rec : ErrRecord) : Option (BitVec 16) := rec.errno.map (BitVec.ofInt 16)

/-- `struct socket`, as far as `soreceive` reads it before it takes bytes. -/
structure RecvSock where
  soRcv : SockBuf
  /-- `so_rcv.sb_lowat` -/
  sbLowat : BitVec 32
  soError : BitVec 16
  ssCantRcvMore : Bool
  ssIsConnected : Bool
  ssIsConnecting : Bool
  ssNbio : Bool

/-- The arguments of `soreceive`, and what the protocol says of itself. -/
structure RecvArgs where
  prAtomic : Bool
  prConnrequired : Bool
  uioResid : BitVec 32
  msgPeek : Bool
  msgDontwait : Bool
  msgWaitall : Bool

/-- Where `soreceive` goes from `restart`, with the buffer locked. -/
inductive RecvHead where
  | dontblock
  | release (error : ℤ) (so : RecvSock)
  /-- `sbwait` -/
  | sleep

namespace RecvSock

variable (a : RecvArgs) (so : RecvSock)

/-- There is too little: the condition at `restart`. -/
def Short : Prop :=
  so.soRcv.sbMb = [] ∨
    (a.msgDontwait = false ∧ so.soRcv.sbCc < a.uioResid) ∧
      (so.soRcv.sbCc < so.sbLowat ∨ (a.msgWaitall = true ∧ a.uioResid ≤ so.soRcv.sbHiwat)) ∧
      so.soRcv.sbMb.tail = [] ∧ a.prAtomic = false

instance : Decidable (so.Short a) := inferInstanceAs (Decidable (_ ∨ (_ ∧ _) ∧ (_ ∨ (_ ∧ _)) ∧ _ ∧ _))

/-- `soreceive`, from `restart` to `dontblock`. -/
def head : RecvHead :=
  if so.Short a then
    if so.soError ≠ 0 then
      if so.soRcv.sbMb ≠ [] then .dontblock
      else .release so.soError.toNat { so with soError := if a.msgPeek then so.soError else 0 }
    else if so.ssCantRcvMore then
      if so.soRcv.sbMb ≠ [] then .dontblock else .release 0 so
    else if ∃ m ∈ so.soRcv.sbMb.headD [], m.mType = mtOOBDATA ∨ m.mEor = true then .dontblock
    else if so.ssIsConnected = false ∧ so.ssIsConnecting = false ∧ a.prConnrequired = true then
      .release (-eNOTCONN) so
    else if a.uioResid = 0 then .release 0 so
    else if so.ssNbio = true ∨ a.msgDontwait = true then .release (-eWOULDBLOCK) so
    else .sleep
  else .dontblock

end RecvSock

/-- A call that takes an error: `sosend` at the head of its loop, `soreceive` at `restart`, `kaccept`, and `kconnect`
behind `soconnect`. -/
inductive ErrCall where
  | sosend (a : SendArgs) (r : SendRun)
  | soreceive (a : RecvArgs) (so : RecvSock)
  | kaccept (wakes : List (ℤ × SockState)) (so : SockState)
  | kconnect (wakes : List (ℤ × SockState)) (ret : ℤ) (so : SockState)

namespace ErrCall

/-- What the call finds in `so_error` at its test, if it comes to it. -/
def takes : ErrCall → Option (BitVec 16)
  | sosend _ r => if r.sock.ssCantSendMore then none else some r.sock.soError
  | soreceive _ so => if so.soRcv.sbMb = [] then some so.soError else none
  | kaccept wakes so =>
      if so.soAcceptConn = false ∨ (so.ssNbio = true ∧ so.soQlen = 0) then none
      else (acceptWait wakes so).bind fun r => if r.1 = none then some r.2.soError else none
  | kconnect wakes ret so =>
      if ret < 0 ∨ (so.ssNbio = true ∧ so.ssIsConnecting = true) then none
      else (connectWait wakes ret so).bind fun r => if r.1 = 0 then some r.2.soError else none

/-- What the call returns, if it does, and what is left in `so_error`. -/
def result : ErrCall → Option (ℤ × BitVec 16)
  | sosend a r =>
      match (r.check a).phase with
      | .done error => some (error, (r.check a).sock.soError)
      | _ => none
  | soreceive a so =>
      match so.head a with
      | .release error so => some (error, so.soError)
      | _ => none
  | kaccept wakes so => (acceptStart wakes so).bind fun r => r.1.map fun ret => (ret, r.2.soError)
  | kconnect wakes ret so => (connectEnd wakes ret so).map fun r => (r.1, r.2.soError)

/-- The call clears what it takes. -/
def Clears : ErrCall → Prop
  | sosend .. => False
  | soreceive a _ => a.msgPeek = false
  | kaccept .. | kconnect .. => True

end ErrCall

/-! ## What should hold -/

/-- The call returns the error as it was recorded, and clears it. -/
def ErrorReaches (e : ℤ) (c : ErrCall) : Prop := c.result = some (e, 0)

instance (e : ℤ) (c : ErrCall) : Decidable (ErrorReaches e c) := inferInstanceAs (Decidable (_ = _))

/-! ## What comes out -/

section

variable {v : BitVec 16} {c : ErrCall}

/-- A number is stored without its sign. -/
theorem toNat_ofInt_soError (e : ℤ) : ((BitVec.ofInt 16 e).toNat : ℤ) = e % 65536 := by
  rw [BitVec.toNat_ofInt]
  omega

/-- An error that is negative, as they are. -/
theorem toNat_ofInt_errno {e : ℤ} (hlt : e < 0) (hle : -65536 < e) :
    ((BitVec.ofInt 16 e).toNat : ℤ) = 65536 + e := by
  rw [toNat_ofInt_soError]
  omega

theorem sosend_result {a : SendArgs} {r : SendRun} (htakes : (ErrCall.sosend a r).takes = some v) (hv : v ≠ 0) :
    (ErrCall.sosend a r).result = some ((v.toNat : ℤ), v) := by
  rw [ErrCall.takes] at htakes
  split_ifs at htakes with hcant
  obtain rfl := Option.some.inj htakes
  have hcheck : r.check a = r.release r.sock.soError.toNat := by
    rw [SendRun.check, SendRun.checkError, if_neg hcant, if_pos hv]
  rw [ErrCall.result, hcheck]
  rfl

theorem soreceive_result {a : RecvArgs} {so : RecvSock} (htakes : (ErrCall.soreceive a so).takes = some v)
    (hv : v ≠ 0) : (ErrCall.soreceive a so).result = some ((v.toNat : ℤ), if a.msgPeek then v else 0) := by
  rw [ErrCall.takes] at htakes
  split_ifs at htakes with hnil
  obtain rfl := Option.some.inj htakes
  have hshort : so.Short a := .inl hnil
  rw [ErrCall.result, RecvSock.head, if_pos hshort, if_pos hv, if_neg (not_not.mpr hnil)]

theorem kaccept_result {wakes : List (ℤ × SockState)} {so : SockState}
    (htakes : (ErrCall.kaccept wakes so).takes = some v) (hv : v ≠ 0) :
    (ErrCall.kaccept wakes so).result = some ((v.toNat : ℤ), 0) := by
  rw [ErrCall.takes] at htakes
  split_ifs at htakes with hstart
  obtain ⟨haccept, hnbio⟩ := not_or.mp hstart
  obtain ⟨⟨slept, so'⟩, hwait, htaken⟩ := Option.bind_eq_some_iff.mp htakes
  split_ifs at htaken with hslept
  obtain rfl : slept = none := hslept
  obtain rfl := Option.some.inj htaken
  rw [ErrCall.result, acceptStart, if_neg haccept, if_neg hnbio, hwait, Option.map_some]
  dsimp only
  rw [if_pos hv]
  rfl

theorem kconnect_result {wakes : List (ℤ × SockState)} {ret : ℤ} {so : SockState}
    (htakes : (ErrCall.kconnect wakes ret so).takes = some v) :
    (ErrCall.kconnect wakes ret so).result = some ((v.toNat : ℤ), 0) := by
  rw [ErrCall.takes] at htakes
  split_ifs at htakes with hstart
  obtain ⟨hret, hnbio⟩ := not_or.mp hstart
  obtain ⟨⟨ret', so'⟩, hwait, htaken⟩ := Option.bind_eq_some_iff.mp htakes
  split_ifs at htaken with hzero
  obtain rfl : ret' = 0 := hzero
  obtain rfl := Option.some.inj htaken
  rw [ErrCall.result, connectEnd, if_neg hret, if_neg hnbio, hwait]
  rfl

/-- A call that finds an error returns it without its sign. -/
theorem ErrCall.result_of_takes (htakes : c.takes = some v) (hv : v ≠ 0) :
    ∃ left, c.result = some ((v.toNat : ℤ), left) ∧ (c.Clears → left = 0) := by
  cases c with
  | sosend a r => exact ⟨v, sosend_result htakes hv, False.elim⟩
  | soreceive a so =>
      refine ⟨_, soreceive_result htakes hv, fun hclears => ?_⟩
      have hpeek : a.msgPeek = false := hclears
      rw [hpeek]
      rfl
  | kaccept wakes so => exact ⟨0, kaccept_result htakes hv, fun _ => rfl⟩
  | kconnect wakes ret so => exact ⟨0, kconnect_result htakes, fun _ => rfl⟩

/-- No call that takes a negative error returns it. -/
theorem errorReaches_never (rec : ErrRecord) (c : ErrCall) (e : ℤ) (he : e < 0) (hrec : rec.errno = some e)
    (htakes : c.takes = rec.soError) (hv : rec.soError ≠ some 0) : ¬ ErrorReaches e c := by
  intro hreaches
  have hstored : rec.soError = some (BitVec.ofInt 16 e) := by rw [ErrRecord.soError, hrec, Option.map_some]
  have hne : BitVec.ofInt 16 e ≠ 0 := fun hzero => hv (hstored.trans (congrArg some hzero))
  obtain ⟨left, hresult, -⟩ := ErrCall.result_of_takes (htakes.trans hstored) hne
  have hret := (Prod.ext_iff.mp (Option.some.inj (hresult.symm.trans hreaches))).1
  have hnonneg : (0 : ℤ) ≤ (BitVec.ofInt 16 e).toNat := Int.natCast_nonneg _
  omega

end

/-! ## Examples -/

/-- `soreceive` of one byte, on an empty buffer. -/
def recvOne : RecvArgs := ⟨false, true, 1, false, false, false⟩

/-- A socket after a segment with `TH_RST`. -/
def resetSock : RecvSock :=
  ⟨⟨⟨0, 0⟩, 8192, 65536, false, []⟩, 1, BitVec.ofInt 16 (-eCONNRESET), true, false, false, false⟩

theorem errorReaches_never_reset : ¬ ErrorReaches (-eCONNRESET) (.soreceive recvOne resetSock) :=
  errorReaches_never (.tcpInput .established) _ _ (by decide) rfl (by decide) (by decide)

/-- 65432 bytes seem to have been received. -/
theorem soreceive_returns_positive :
    (ErrCall.soreceive recvOne resetSock).takes = (ErrRecord.tcpInput .established).soError ∧
    (ErrCall.soreceive recvOne resetSock).result = some (65432, 0) ∧
    ¬ ErrorReaches (-eCONNRESET) (.soreceive recvOne resetSock) := by decide

end Shaunos.Net
