import Shaunos.Net.SockBuf

/-!
# Connections

Reference: `Include/kernel/sys/netinet/tcp_var.h`, `tcp_fsm.h`, `tcp_seq.h`, `tcp.h`, `tcpip.h`,
`Include/kernel/sys/socketval.h`.

Sequence numbers are words of 32 bits, compared by the sign of their difference. The fields of type
`s16` are words of 16 bits that are read as signed numbers.
-/

namespace Shaunos.Net

/-- `t_state`. -/
inductive TcpState where
  | closed
  | listen
  | synSent
  | synReceived
  | established
  | closeWait
  | finWait1
  | closing
  | lastAck
  | finWait2
  | timeWait
deriving DecidableEq

/-- The `TCPS_` numbers. -/
def TcpState.num : TcpState → ℕ
  | closed => 0
  | listen => 1
  | synSent => 2
  | synReceived => 3
  | established => 4
  | closeWait => 5
  | finWait1 => 6
  | closing => 7
  | lastAck => 8
  | finWait2 => 9
  | timeWait => 10

/-- `TCPS_HAVERCVDSYN`. -/
def TcpState.haveRcvdSyn (s : TcpState) : Prop := synReceived.num ≤ s.num

/-- `TCPS_HAVERCVDFIN`. -/
def TcpState.haveRcvdFin (s : TcpState) : Prop := timeWait.num ≤ s.num

instance (s : TcpState) : Decidable s.haveRcvdSyn := inferInstanceAs (Decidable (_ ≤ _))

instance (s : TcpState) : Decidable s.haveRcvdFin := inferInstanceAs (Decidable (_ ≤ _))

section

variable (a b : BitVec 32)

/-- `SEQ_LT`. -/
def seqLT : Prop := (a - b).toInt < 0

/-- `SEQ_LEQ`. -/
def seqLEQ : Prop := (a - b).toInt ≤ 0

/-- `SEQ_GT`. -/
def seqGT : Prop := 0 < (a - b).toInt

/-- `SEQ_GEQ`, and `TSTMP_GEQ` for time stamps. -/
def seqGEQ : Prop := 0 ≤ (a - b).toInt

instance : Decidable (seqLT a b) := inferInstanceAs (Decidable (_ < _))

instance : Decidable (seqLEQ a b) := inferInstanceAs (Decidable (_ ≤ _))

instance : Decidable (seqGT a b) := inferInstanceAs (Decidable (_ < _))

instance : Decidable (seqGEQ a b) := inferInstanceAs (Decidable (_ ≤ _))

end

/-- `th_flags`. -/
structure TcpFlags where
  thFin : Bool
  thSyn : Bool
  thRst : Bool
  thPush : Bool
  thAck : Bool
  thUrg : Bool

/-- `struct tcpiphdr`, as `tcp_input` has it once the connection is found. -/
structure Tcpiphdr where
  /-- The number of data bytes, an `s16`. -/
  tiLen : BitVec 16
  tiSeq : BitVec 32
  tiAck : BitVec 32
  tiFlags : TcpFlags
  tiWin : BitVec 16
  tiUrp : BitVec 16

/-- The indices of `t_timer`. -/
inductive TcpTimer where
  | rexmt
  | persist
  | keep
  | msl2
deriving DecidableEq

/-- The fields of `struct tcpcb` for the send sequence. -/
structure SendSeq where
  sndUna : BitVec 32
  sndNxt : BitVec 32
  sndUp : BitVec 32
  sndWl1 : BitVec 32
  sndWl2 : BitVec 32
  iss : BitVec 32
  sndWnd : BitVec 32
  sndMax : BitVec 32
  sndCwnd : BitVec 32
  sndSsthresh : BitVec 32
  maxSndwnd : BitVec 32

/-- The fields of `struct tcpcb` for the receive sequence. -/
structure RecvSeq where
  rcvWnd : BitVec 32
  rcvNxt : BitVec 32
  rcvUp : BitVec 32
  irs : BitVec 32
  rcvAdv : BitVec 32
  lastAckSent : BitVec 32

/-- The fields of `struct tcpcb` for timers and transmission times. -/
structure TcpTimes where
  tTimer : TcpTimer → BitVec 16
  tRxtshift : BitVec 16
  tRxtcur : BitVec 16
  tIdle : BitVec 16
  tRtt : BitVec 16
  tRtseq : BitVec 32
  tSrtt : BitVec 16
  tRttvar : BitVec 16
  tRttmin : BitVec 16
  tSofterror : BitVec 16
  tsRecent : BitVec 32
  tsRecentAge : BitVec 32

/-- The bits of `t_flags`. -/
structure TFlags where
  tfAckNow : Bool
  tfDelAck : Bool
  tfNoDelay : Bool
  tfNoOpt : Bool
  tfSentFin : Bool
  tfReqScale : Bool
  tfRcvdScale : Bool
  tfReqTstmp : Bool
  tfRcvdTstmp : Bool

/-- `struct tcpcb`. -/
structure Tcpcb extends SendSeq, RecvSeq, TcpTimes, TFlags where
  /-- The reassembly queue from `seg_next` on, each segment with its chain of mbufs. -/
  segs : List (Tcpiphdr × List Mbuf)
  tState : TcpState
  tDupacks : BitVec 16
  tMaxseg : BitVec 16
  tForce : Bool
  sndScale : ℕ
  rcvScale : ℕ
  requestRScale : ℕ
  requestedSScale : ℕ

/-- `struct socket`, as far as a connection uses it. The bits of `so_state` are the fields `ss…`. -/
structure Socket where
  ssNofdref : Bool
  ssIsConnected : Bool
  ssIsConnecting : Bool
  ssIsDisconnecting : Bool
  ssCantSendMore : Bool
  ssCantRcvMore : Bool
  soError : ℤ
  soRcv : SockBuf
  soSnd : SockBuf

def tcpMAXWIN : ℕ := 65535
def tcpMAXWINSHIFT : ℕ := 14
def tcpMssdflt : ℕ := 512

/-- `tcp_newtcpcb`, with the state that `tcp_attach` gives it. -/
def tcpNewtcpcb : Tcpcb where
  sndUna := 0
  sndNxt := 0
  sndUp := 0
  sndWl1 := 0
  sndWl2 := 0
  iss := 0
  sndWnd := 0
  sndMax := 0
  sndCwnd := BitVec.ofNat 32 (tcpMAXWIN <<< tcpMAXWINSHIFT)
  sndSsthresh := BitVec.ofNat 32 (tcpMAXWIN <<< tcpMAXWINSHIFT)
  maxSndwnd := 0
  rcvWnd := 0
  rcvNxt := 0
  rcvUp := 0
  irs := 0
  rcvAdv := 0
  lastAckSent := 0
  tTimer := fun _ => 0
  tRxtshift := 0
  tRxtcur := 12
  tIdle := 0
  tRtt := 0
  tRtseq := 0
  tSrtt := 0
  tRttvar := 24
  tRttmin := 2
  tSofterror := 0
  tsRecent := 0
  tsRecentAge := 0
  tfAckNow := false
  tfDelAck := false
  tfNoDelay := false
  tfNoOpt := false
  tfSentFin := false
  tfReqScale := true
  tfRcvdScale := false
  tfReqTstmp := true
  tfRcvdTstmp := false
  segs := []
  tState := .closed
  tDupacks := 0
  tMaxseg := BitVec.ofNat 16 tcpMssdflt
  tForce := false
  sndScale := 0
  rcvScale := 0
  requestRScale := 0
  requestedSScale := 0

/-- An empty socket buffer after `sbreserve`. -/
def reservedSb (cc : ℕ) : SockBuf where
  sbCc := 0
  sbMbcnt := 0
  sbHiwat := BitVec.ofNat 32 cc
  sbMbmax := BitVec.ofNat 32 (min (cc * 2) (256 * 1024))
  sbLock := false
  sbMb := []

/-- A socket after `tcp_attach`, with `tcp_sendspace` and `tcp_recvspace`. -/
def attachedSocket : Socket where
  ssNofdref := false
  ssIsConnected := false
  ssIsConnecting := false
  ssIsDisconnecting := false
  ssCantSendMore := false
  ssCantRcvMore := false
  soError := 0
  soRcv := reservedSb (1024 * 8)
  soSnd := reservedSb (1024 * 8)

/-- `tcp_input` sets the receive window. -/
def setRcvWnd (so : Socket) (tp : Tcpcb) : Tcpcb :=
  let win := max (sbspace so.soRcv) 0
  { tp with rcvWnd := BitVec.ofInt 32 (max win (tp.rcvAdv - tp.rcvNxt).toInt) }

theorem toInt_lt (x : BitVec 32) : x.toInt < 2 ^ 31 := by
  have := BitVec.toInt_lt (x := x)
  omega

/-- The receive window is not negative. -/
theorem setRcvWnd_lt (so : Socket) (tp : Tcpcb) : (setRcvWnd so tp).rcvWnd.toNat < 2 ^ 31 := by
  have h₁ := toInt_lt (so.soRcv.sbHiwat - so.soRcv.sbCc)
  have h₂ := toInt_lt (tp.rcvAdv - tp.rcvNxt)
  simp only [setRcvWnd, sbspace, BitVec.toNat_ofInt]
  omega

end Shaunos.Net
