import Shaunos.Common.Early
import Shaunos.Net.TcpOutput
import Shaunos.Net.TcpReass
import Shaunos.Net.TcpTrim

/-!
# A segment comes in

Reference: `Kernel/netinet/tcp_input.c` (`tcp_input`, once the connection is found), `Kernel/net/uipc_socket2.c`.

The function is cut where it comes to `ti_ack` and where it calls `tcp_output`.

* `Incoming.finish_right`, `Incoming.acknowledge_right`, `Conn.input_right` — a part that returns leaves no timer off.
-/

namespace Shaunos.Net

/-! ## The code -/

/-- `TCPTV_KEEP_IDLE`, `TCPTV_MSL`, with `PR_SLOWHZ` 2. -/
def tcptvKEEPIDLE : ℕ := 120 * 60 * 2
def tcptvMSL : ℕ := 30 * 2

/-- `TCP_PAWS_IDLE`, with `PR_SLOWHZ` 2. -/
def tcpPAWSIDLE : ℤ := 24 * 24 * 60 * 60 * 2

/-- `TCPOLEN_TSTAMP_APPA`. -/
def tcpolenTSTAMPAPPA : ℕ := tcpolenTIMESTAMP + 2

/-- A segment. The connection has been found, and its checksum is right. -/
structure Arrival where
  ti : Tcpiphdr
  /-- The `optlen` bytes at `optp`. -/
  opts : ℕ → Byte
  optlen : ℕ
  /-- The data. -/
  m : List Mbuf

/-- What `tcp_input` finds on the machine. -/
structure InputEnv where
  /-- The route of `tcp_mss`. -/
  rt : Option Rtentry
  tcpNow : BitVec 32
  /-- The word that `tcp_reass` takes for a `ti_seq`. -/
  null : BitVec 32
  soAcceptconn : Bool
  soOobinline : Bool
  /-- `m_get` and `in_pcbconnect` succeed for a SYN. -/
  connects : Bool

/-- The variables of `tcp_input`. -/
structure Incoming extends Conn where
  ti : Tcpiphdr
  tiflags : TcpFlags
  m : List Mbuf
  tiwin : BitVec 32
  tsPresent : Bool
  tsVal : BitVec 32
  tsEcr : BitVec 32
  env : InputEnv

/-- What `tcp_output` returns to. -/
inductive Caller where
  | plain
  /-- `t_force` is cleared. -/
  | forced
  /-- The window is opened for the segments that came behind a lost one; `snd_nxt` was `onxt`. -/
  | fastRexmt (onxt : BitVec 32)

/-- A connection, and what is under way for it. -/
inductive ConnRun where
  | idle (s : Conn)
  /-- `tcp_input` comes to `ti_ack`. -/
  | ack (x : Incoming)
  /-- `tcp_output` comes to a round. -/
  | output (s : Conn) (caller : Caller) (idle : Bool)
  /-- After `tcp_close`. -/
  | gone

/-- A part of a function. It returns early, or not at all if the machine stops with a fault. -/
abbrev Part := Except (Option ConnRun)

/-- `tcp_output` is called. -/
def Conn.callOutput (s : Conn) (caller : Caller) : ConnRun :=
  .output { s with tp := s.tp.outputIdle } caller (s.tp.sndMax = s.tp.sndUna)

namespace Socket

variable (so : Socket)

/-- `soisconnected`, `soisdisconnected`, `socantrcvmore`: what they do to `so_state`. -/
def isConnected : Socket := { so with ssIsConnecting := false, ssIsDisconnecting := false, ssIsConnected := true }

def isDisconnected : Socket := { so with
  ssIsConnecting := false, ssIsConnected := false, ssIsDisconnecting := false, ssCantRcvMore := true, ssCantSendMore := true }

def cantRcvMore : Socket := { so with ssCantRcvMore := true }

end Socket

namespace Tcpcb

variable (tp : Tcpcb)

/-- `t_timer[i] = tics`. -/
def setTimer (i : TcpTimer) (tics : BitVec 16) : Tcpcb := { tp with tTimer := Function.update tp.tTimer i tics }

/-- `tcp_canceltimers`. -/
def canceltimers : Tcpcb := { tp with tTimer := fun _ => 0 }

/-- The scales of the windows, if both sides have asked for them. -/
def scaled : Tcpcb :=
  if tp.tfRcvdScale ∧ tp.tfReqScale then { tp with sndScale := tp.requestedSScale, rcvScale := tp.requestRScale } else tp

/-- What an acknowledgement says of the round-trip time. -/
def timeAck (tsPresent : Bool) (tsEcr tcpNow tiAck : BitVec 32) : Tcpcb :=
  if tsPresent then tcpXmitTimer tp (RttSample.stamped tcpNow tsEcr).rtt
  else if tp.tRtt ≠ 0 ∧ seqGT tiAck tp.tRtseq then tcpXmitTimer tp (RttSample.timed tp.tRtt).rtt
  else tp

/-- The retransmit timer, when `ti_ack` is new. -/
def ackTimer (tiAck : BitVec 32) : Tcpcb :=
  if tiAck = tp.sndMax then tp.setTimer .rexmt 0
  else if tp.tTimer .persist = 0 then tp.setTimer .rexmt tp.tRxtcur
  else tp

end Tcpcb

/-- The header prediction of time stamps: the options start with a time stamp, and have nothing else. -/
def Arrival.tstampAppa (a : Arrival) : Bool :=
  (a.optlen = tcpolenTSTAMPAPPA ∨ (tcpolenTSTAMPAPPA < a.optlen ∧ a.opts tcpolenTSTAMPAPPA = tcpoptEOL)) ∧
    a.opts 0 = tcpoptNOP ∧ a.opts 1 = tcpoptNOP ∧ a.opts 2 = tcpoptTIMESTAMP ∧ (a.opts 3).toNat = tcpolenTIMESTAMP ∧
    ¬ a.ti.tiFlags.thSyn

/-- Up to `tcp_dooptions`. -/
def Conn.incoming (s : Conn) (a : Arrival) (env : InputEnv) : Option Incoming :=
  let tiwin := if a.ti.tiFlags.thSyn then a.ti.tiWin.setWidth 32 else a.ti.tiWin.setWidth 32 <<< s.tp.sndScale
  let tp := { s.tp.setTimer .keep (BitVec.ofNat 16 tcptvKEEPIDLE) with tIdle := 0 }
  if a.tstampAppa then
    some { so := s.so, tp, ti := a.ti, tiflags := a.ti.tiFlags, m := a.m, tiwin, tsPresent := true
           tsVal := ntohl a.opts 4, tsEcr := ntohl a.opts 8, env }
  else if a.optlen = 0 ∨ tp.tState = .listen then
    some { so := s.so, tp, ti := a.ti, tiflags := a.ti.tiFlags, m := a.m, tiwin, tsPresent := false
           tsVal := 0, tsEcr := 0, env }
  else
    (tcpDooptions a.opts a.ti.tiFlags.thSyn env.rt (a.optlen + 1) a.optlen ⟨s.so, tp, false, 0, 0, [], [], []⟩).map fun r =>
      { so := r.so, tp := r.tp, ti := a.ti, tiflags := a.ti.tiFlags, m := a.m, tiwin, tsPresent := r.tsPresent
        tsVal := r.tsVal, tsEcr := r.tsEcr, env }

namespace Incoming

variable (x : Incoming)

/-- `ts_recent`, for a segment of `len` bytes. -/
def recent (len : BitVec 32) : Incoming :=
  if x.tsPresent ∧ seqLEQ x.ti.tiSeq x.tp.lastAckSent ∧ seqLT x.tp.lastAckSent (x.ti.tiSeq + len) then
    { x with tp := { x.tp with tsRecentAge := x.env.tcpNow, tsRecent := x.tsVal } }
  else x

/-- The segment is one of those that are predicted. The window is compared with `snd_nxt`. -/
def predicted : Bool :=
  x.tp.tState = .established ∧ ¬ x.tiflags.thSyn ∧ ¬ x.tiflags.thFin ∧ ¬ x.tiflags.thRst ∧ ¬ x.tiflags.thUrg ∧
    x.tiflags.thAck ∧ (¬ x.tsPresent ∨ seqGEQ x.tsVal x.tp.tsRecent) ∧ x.ti.tiSeq = x.tp.rcvNxt ∧ x.tiwin ≠ 0 ∧
    x.tiwin = x.tp.sndNxt ∧ x.tp.sndNxt = x.tp.sndMax

/-- A predicted segment is an acknowledgement that takes the short way. -/
def fastAck : Bool :=
  x.predicted ∧ x.ti.tiLen = 0 ∧ seqGT x.ti.tiAck x.tp.sndUna ∧ seqLEQ x.ti.tiAck x.tp.sndMax ∧ x.tp.sndWnd ≤ x.tp.sndCwnd

/-- The short way for an acknowledgement. -/
def acked : Option ConnRun := do
  let soSnd ← sbdrop x.so.soSnd (x.ti.tiAck - x.tp.sndUna).toInt
  let tp := (x.tp.timeAck x.tsPresent x.tsEcr x.env.tcpNow x.ti.tiAck).ackTimer x.ti.tiAck
  let s : Conn := ⟨{ x.so with soSnd }, { tp with sndUna := x.ti.tiAck }⟩
  return if soSnd.sbCc ≠ 0 then s.callOutput .plain else .idle s

/-- Header prediction. -/
def predict : Part Incoming :=
  if x.predicted then
    let y := x.recent (x.ti.tiLen.signExtend 32)
    if x.fastAck then throw y.acked
    else if x.ti.tiLen ≠ 0 ∧ x.ti.tiAck = x.tp.sndUna ∧ x.tp.segs = [] ∧ x.ti.tiLen.toInt ≤ sbspace x.so.soRcv then
      throw (some (.idle ⟨{ y.so with soRcv := sbappend y.so.soRcv y.m },
        { y.tp with rcvNxt := y.tp.rcvNxt + y.ti.tiLen.signExtend 32, tfDelAck := true }⟩))
    else pure y
  else pure x

/-- `dropafterack`. -/
def dropafterack {α : Type} : Part α :=
  if x.tiflags.thRst then throw (some (.idle x.toConn))
  else throw (some (Conn.callOutput ⟨x.so, { x.tp with tfAckNow := true }⟩ .plain))

/-- `TCPS_LISTEN`. There is no template, so that the connection is dropped at the end. -/
def listen : ConnRun :=
  if x.tiflags.thRst ∨ x.tiflags.thAck ∨ ¬ x.tiflags.thSyn then .idle x.toConn
  else if x.env.connects then .gone
  else .idle x.toConn

/-- `trimthenstep6`. -/
def trimSyn : Incoming :=
  let tiSeq := x.ti.tiSeq + 1
  let tp := { x.tp with sndWl1 := tiSeq - 1, rcvUp := tiSeq }
  if x.tp.rcvWnd < x.ti.tiLen.signExtend 32 then
    { x with
      tp
      ti := { x.ti with tiSeq, tiLen := x.tp.rcvWnd.setWidth 16 }
      m := mAdj x.m (-(x.ti.tiLen.signExtend 32 - x.tp.rcvWnd).toInt)
      tiflags := { x.tiflags with thFin := false } }
  else { x with tp, ti := { x.ti with tiSeq } }

/-- The connection is made: `soisconnected`, the scales and `tcp_reass` without a segment. -/
def established : Part Incoming :=
  let so := x.so.isConnected
  match tcpReass x.env.null { x.tp with tState := .established }.scaled so none with
  | none => throw none
  | some (_, tp, so) => pure { x with so, tp }

/-- `TCPS_SYN_SENT`, up to `step6`. -/
def synSent : Part Incoming :=
  let tp := x.tp
  if x.tiflags.thAck ∧ (seqLEQ x.ti.tiAck tp.iss ∨ seqGT x.ti.tiAck tp.sndMax) then throw (some (.idle x.toConn))
  else if x.tiflags.thRst then throw (some (if x.tiflags.thAck then .gone else .idle x.toConn))
  else if ¬ x.tiflags.thSyn then throw (some (.idle x.toConn))
  else
    let tp :=
      if x.tiflags.thAck then
        { tp with sndUna := x.ti.tiAck, sndNxt := if seqLT tp.sndNxt x.ti.tiAck then x.ti.tiAck else tp.sndNxt }
      else tp
    let tp := { tcpRcvseqinit (tp.setTimer .rexmt 0) x.ti.tiSeq with tfAckNow := true }
    if x.tiflags.thAck ∧ seqGT tp.sndUna tp.iss then do
      let x ← { x with tp }.established
      return { x with tp := if x.tp.tRtt ≠ 0 then tcpXmitTimer x.tp x.tp.tRtt else x.tp }.trimSyn
    else return { x with tp := { tp with tState := .synReceived } }.trimSyn

/-- A time stamp that is too old. -/
def paws : Part Incoming :=
  if x.tsPresent ∧ ¬ x.tiflags.thRst ∧ x.tp.tsRecent ≠ 0 ∧ seqLT x.tsVal x.tp.tsRecent then
    if tcpPAWSIDLE < (x.env.tcpNow - x.tp.tsRecentAge).toInt then pure { x with tp := { x.tp with tsRecent := 0 } }
    else x.dropafterack
  else pure x

/-- The segment is trimmed to the window. -/
def trimmed : Part Incoming :=
  match trim mAdj x.so x.tp x.ti x.tiflags x.m with
  | .drop => throw (some (.idle ⟨x.so, (trimLeft mAdj x.tp x.ti x.tiflags x.m).1⟩))
  | .output tp => throw (some (Conn.callOutput ⟨x.so, tp⟩ .plain))
  | .reset _ _ | .reopen _ _ _ => throw (some .gone)
  | .pass tp ti tiflags m => pure { x with tp, ti, tiflags, m }

/-- RST, SYN, and a segment without ACK. All states that come here are cases of the `switch` for RST. -/
def checkFlags : Part Incoming :=
  if x.tiflags.thRst then throw (some .gone)
  else if x.tiflags.thSyn then throw (some .gone)
  else if ¬ x.tiflags.thAck then throw (some (.idle x.toConn))
  else pure x

/-- `TCPS_SYN_RECEIVED`. -/
def synReceived : Part Incoming :=
  if x.tp.tState = .synReceived then
    if seqGT x.tp.sndUna x.ti.tiAck ∨ seqGT x.ti.tiAck x.tp.sndMax then throw (some (.idle x.toConn))
    else do
      let x ← x.established
      return { x with tp := { x.tp with sndWl1 := x.ti.tiSeq - 1 } }
  else pure x

/-- The third duplicate: the segment is sent again at once. -/
def fastRexmt : Part (Incoming × Bool) :=
  match x.tp.halfWindow with
  | none => throw none
  | some sndSsthresh =>
      throw (some (Conn.callOutput ⟨x.so, { x.tp.setTimer .rexmt 0 with
        sndSsthresh, tRtt := 0, sndNxt := x.ti.tiAck, sndCwnd := x.tp.maxseg }⟩ (.fastRexmt x.tp.sndNxt)))

/-- `ti_ack` is not new. -/
def duplicate : Part (Incoming × Bool) :=
  if x.ti.tiLen = 0 ∧ x.tiwin = x.tp.sndWnd then
    if x.tp.tTimer .rexmt = 0 ∨ x.ti.tiAck ≠ x.tp.sndUna then pure ({ x with tp := { x.tp with tDupacks := 0 } }, false)
    else
      let x := { x with tp := { x.tp with tDupacks := x.tp.tDupacks + 1 } }
      if x.tp.tDupacks.toInt = tcprexmtthresh then x.fastRexmt
      else if tcprexmtthresh < x.tp.tDupacks.toInt then
        throw (some (Conn.callOutput ⟨x.so, { x.tp with sndCwnd := x.tp.sndCwnd + x.tp.maxseg }⟩ .plain))
      else pure (x, false)
  else pure ({ x with tp := { x.tp with tDupacks := 0 } }, false)

/-- What is acknowledged leaves the send buffer. The result says if the FIN is. -/
def dropAcked : Option (Incoming × Bool) :=
  let acked := x.ti.tiAck - x.tp.sndUna
  let cc := x.so.soSnd.sbCc
  let ourfinisacked := decide (cc < acked)
  let k := if ourfinisacked then cc else acked
  (sbdrop x.so.soSnd k.toInt).map fun soSnd =>
    ({ x with
      so := { x.so with soSnd }
      tp := { x.tp with
        sndWnd := x.tp.sndWnd - k
        sndUna := x.ti.tiAck
        sndNxt := if seqLT x.tp.sndNxt x.ti.tiAck then x.ti.tiAck else x.tp.sndNxt } }, ourfinisacked)

/-- The state, when something new is acknowledged. -/
def ackState (ourfinisacked : Bool) : Part Incoming :=
  match x.tp.tState with
  | .finWait1 =>
      if ourfinisacked then
        let tp := if x.so.ssCantRcvMore then x.tp.setTimer .msl2 1200 else x.tp
        pure { x with
          so := if x.so.ssCantRcvMore then x.so.isDisconnected else x.so
          tp := { tp with tState := .finWait2 } }
      else pure x
  | .closing =>
      if ourfinisacked then
        pure { x with
          so := x.so.isDisconnected
          tp := { x.tp.canceltimers.setTimer .msl2 (BitVec.ofNat 16 (2 * tcptvMSL)) with tState := .timeWait } }
      else pure x
  | .lastAck => if ourfinisacked then throw (some .gone) else pure x
  | .timeWait => dropafterack { x with tp := x.tp.setTimer .msl2 (BitVec.ofNat 16 (2 * tcptvMSL)) }
  | _ => pure x

/-- What `tcp_input` does with `ti_ack`, and if `needoutput` is set. -/
def acknowledge : Part (Incoming × Bool) :=
  if seqLEQ x.ti.tiAck x.tp.sndUna then x.duplicate
  else
    let tp := x.tp.endDupacks
    if seqGT x.ti.tiAck tp.sndMax then dropafterack { x with tp }
    else
      let tp := ((tp.timeAck x.tsPresent x.tsEcr x.env.tcpNow x.ti.tiAck).ackTimer x.ti.tiAck).openWindow
      match dropAcked { x with tp } with
      | none => throw none
      | some (y, ourfinisacked) => do
          let y ← y.ackState ourfinisacked
          return (y, x.ti.tiAck = x.tp.sndMax)

/-- `step6`: the segment has a newer window. -/
def newWindow : Bool :=
  x.tiflags.thAck ∧ (seqLT x.tp.sndWl1 x.ti.tiSeq ∨ (x.tp.sndWl1 = x.ti.tiSeq ∧
    (seqLT x.tp.sndWl2 x.ti.tiAck ∨ (x.tp.sndWl2 = x.ti.tiAck ∧ x.tp.sndWnd < x.tiwin))))

def step6 : Incoming :=
  if x.newWindow then
    { x with tp := { x.tp with
      sndWnd := x.tiwin
      sndWl1 := x.ti.tiSeq
      sndWl2 := x.ti.tiAck
      maxSndwnd := if x.tp.maxSndwnd < x.tiwin then x.tiwin else x.tp.maxSndwnd } }
  else x

end Incoming

/-- `tcp_pulloutofband`: the byte that `ti_urp` points behind is taken out of the chain. -/
def tcpPulloutofband : (cnt : ℕ) → List Mbuf → List Mbuf
  | _, [] => []
  | cnt, m :: rest =>
      if cnt < m.mLen then { m with bytes := m.bytes.eraseIdx cnt } :: rest
      else m :: tcpPulloutofband (cnt - m.mLen) rest

namespace Incoming

variable (x : Incoming)

/-- Urgent data. -/
def urgent : Incoming :=
  let urp := x.ti.tiUrp.setWidth 32
  if x.tiflags.thUrg ∧ x.ti.tiUrp ≠ 0 ∧ ¬ x.tp.tState.haveRcvdFin then
    if sbMAX < urp + x.so.soRcv.sbCc then { x with ti := { x.ti with tiUrp := 0 }, tiflags := { x.tiflags with thUrg := false } }
    else
      { x with
        tp := if seqGT (x.ti.tiSeq + urp) x.tp.rcvUp then { x.tp with rcvUp := x.ti.tiSeq + urp } else x.tp
        m := if (x.ti.tiUrp.toNat : ℤ) ≤ x.ti.tiLen.toInt ∧ ¬ x.env.soOobinline then
            tcpPulloutofband (x.ti.tiUrp.toNat - 1) x.m else x.m }
  else if seqGT x.tp.rcvNxt x.tp.rcvUp then { x with tp := { x.tp with rcvUp := x.tp.rcvNxt } }
  else x

/-- `dodata`, with the macro `TCP_REASS`. The result says if a FIN is to be handled. -/
def dodata : Option (Incoming × Bool) :=
  if (x.ti.tiLen ≠ 0 ∨ x.tiflags.thFin) ∧ ¬ x.tp.tState.haveRcvdFin then
    if x.ti.tiSeq = x.tp.rcvNxt ∧ x.tp.segs = [] ∧ x.tp.tState = .established then
      some ({ x with
        so := { x.so with soRcv := sbappend x.so.soRcv x.m }
        tp := { x.tp with tfDelAck := true, rcvNxt := x.tp.rcvNxt + x.ti.tiLen.signExtend 32 } }, x.ti.tiFlags.thFin)
    else
      (tcpReass x.env.null x.tp x.so (some (x.ti, x.m))).map fun (fin, tp, so) =>
        ({ x with so, tp := { tp with tfAckNow := true } }, fin)
  else some (x, false)

/-- A FIN has come. -/
def finState : Conn :=
  match x.tp.tState with
  | .synReceived | .established => ⟨x.so, { x.tp with tState := .closeWait }⟩
  | .finWait1 => ⟨x.so, { x.tp with tState := .closing }⟩
  | .finWait2 => ⟨x.so.isDisconnected,
      { x.tp.canceltimers.setTimer .msl2 (BitVec.ofNat 16 (2 * tcptvMSL)) with tState := .timeWait }⟩
  | .timeWait => ⟨x.so, x.tp.setTimer .msl2 (BitVec.ofNat 16 (2 * tcptvMSL))⟩
  | _ => x.toConn

def fin : Conn :=
  if x.tp.tState.haveRcvdFin then x.finState
  else finState { x with so := x.so.cantRcvMore, tp := { x.tp with tfAckNow := true, rcvNxt := x.tp.rcvNxt + 1 } }

/-- From `step6` to the end. -/
def finish (needoutput : Bool) : Option ConnRun :=
  x.step6.urgent.dodata.map fun (y, fin) =>
    let s := if fin then y.fin else y.toConn
    if needoutput ∨ x.newWindow ∨ s.tp.tfAckNow then s.callOutput .plain else .idle s

/-- From `ti_ack` on. -/
def inputAck : Option ConnRun :=
  leave do
    let (y, needoutput) ← x.acknowledge
    return y.finish needoutput

end Incoming

/-- `tcp_input`, up to `ti_ack`. A socket that listens makes a new connection for the segment. -/
def Conn.input (s : Conn) (a : Arrival) (env : InputEnv) : Option ConnRun :=
  if s.tp.tState = .closed ∨ env.soAcceptconn then some (.idle s)
  else
    (s.incoming a env).bind fun x => leave do
      let x ← x.predict
      let x := { x with tp := setRcvWnd x.so x.tp }
      match x.tp.tState with
      | .listen => return some x.listen
      | .synSent => do
          let x ← x.synSent
          return x.finish false
      | _ => do
          let x ← x.paws
          let x ← x.trimmed
          let x := x.recent (x.ti.tiLen.signExtend 32 + if x.tiflags.thSyn ∨ x.tiflags.thFin then 1 else 0)
          let x ← x.checkFlags
          let x ← x.synReceived
          return some (.ack x)


/-! ## What should hold -/

namespace Incoming

variable (x : Incoming)

/-- The short way returns with something to be acknowledged and nothing to send only if the retransmit timer gets a time
or the persist timer runs. -/
def FastOk : Prop :=
  x.fastAck = true → x.ti.tiAck ≠ x.tp.sndMax →
    (∀ soSnd ∈ sbdrop x.so.soSnd (x.ti.tiAck - x.tp.sndUna).toInt, soSnd.sbCc = 0 →
      x.tp.tTimer .persist = 0 → (x.tp.timeAck x.tsPresent x.tsEcr x.env.tcpNow x.ti.tiAck).tRxtcur ≠ 0)

/-- When something new is acknowledged but not all: the same, and in `TCPS_CLOSING` nothing behind the send buffer is
acknowledged, so that the timers are not stopped. -/
def AckOk : Prop :=
  ¬ seqLEQ x.ti.tiAck x.tp.sndUna → ¬ seqGT x.ti.tiAck x.tp.sndMax → x.ti.tiAck ≠ x.tp.sndMax →
    (x.tp.tState = .closing → x.ti.tiAck - x.tp.sndUna ≤ x.so.soSnd.sbCc) ∧
      (x.tp.tTimer .persist = 0 → (x.tp.timeAck x.tsPresent x.tsEcr x.env.tcpNow x.ti.tiAck).tRxtcur ≠ 0)

instance decidableFastOk : Decidable x.FastOk :=
  have : Decidable (∀ soSnd ∈ sbdrop x.so.soSnd (x.ti.tiAck - x.tp.sndUna).toInt, soSnd.sbCc = 0 →
      x.tp.tTimer .persist = 0 → (x.tp.timeAck x.tsPresent x.tsEcr x.env.tcpNow x.ti.tiAck).tRxtcur ≠ 0) :=
    Option.decidableForallMem _
  inferInstanceAs (Decidable (_ → _))

instance decidableAckOk : Decidable x.AckOk := inferInstanceAs (Decidable (_ → _))

end Incoming

/-! ## What is kept on the way -/

section

variable {s t : Conn} {x y : Incoming} {o : Option ConnRun} {needoutput : Bool}

/-- A connection that nothing is under way for does not stall. On the way to `ti_ack` it does not either. -/
def ConnRun.Right : ConnRun → Prop
  | .idle s => s.NoStall
  | .ack x => x.toConn.NoStall ∧ x.tiflags.thRst = false
  | .output _ _ _ | .gone => True

/-- The same of what a function leaves behind, if it returns. -/
def Exit (o : Option ConnRun) : Prop := ∀ r ∈ o, r.Right

theorem exit_idle : Exit (some (.idle s)) ↔ s.NoStall := by
  simp only [Exit, Option.mem_some_iff, forall_eq']
  rfl

theorem exit_callOutput (s : Conn) (caller : Caller) : Exit (some (s.callOutput caller)) := by
  rintro r ⟨⟩
  trivial

theorem exit_gone : Exit (some .gone) := by
  rintro r ⟨⟩
  trivial

theorem exit_none : Exit none := by
  rintro r ⟨⟩

theorem tcpXmitTimer_same (so : Socket) (tp : Tcpcb) (rtt : BitVec 16) : Conn.Same ⟨so, tp⟩ ⟨so, tcpXmitTimer tp rtt⟩ := by
  rw [tcpXmitTimer]
  dsimp only
  split_ifs <;> exact ⟨rfl, rfl, rfl, rfl, rfl⟩

theorem tcpXmitTimer_keeps (tp : Tcpcb) (rtt : BitVec 16) :
    (tcpXmitTimer tp rtt).tState = tp.tState ∧ (tcpXmitTimer tp rtt).tfAckNow = tp.tfAckNow := by
  rw [tcpXmitTimer]
  dsimp only
  split_ifs <;> exact ⟨rfl, rfl⟩

theorem Tcpcb.timeAck_same (tp : Tcpcb) (so : Socket) (tsPresent : Bool) (tsEcr tcpNow tiAck : BitVec 32) :
    Conn.Same ⟨so, tp⟩ ⟨so, tp.timeAck tsPresent tsEcr tcpNow tiAck⟩ := by
  rw [timeAck]
  split_ifs
  · exact tcpXmitTimer_same so tp _
  · exact tcpXmitTimer_same so tp _
  · exact .refl _

theorem Tcpcb.scaled_same (tp : Tcpcb) (so : Socket) : Conn.Same ⟨so, tp⟩ ⟨so, tp.scaled⟩ := by
  rw [scaled]
  split_ifs <;> exact ⟨rfl, rfl, rfl, rfl, rfl⟩

/-- `tcp_reass` keeps what counts for sending. -/
theorem tcpReass_same {null : BitVec 32} {tp tp' : Tcpcb} {so so' : Socket} {ti : Option (Tcpiphdr × List Mbuf)} {fin : Bool}
    (h : tcpReass null tp so ti = some (fin, tp', so')) :
    Conn.Same ⟨so, tp⟩ ⟨so', tp'⟩ ∧ tp'.tfAckNow = tp.tfAckNow ∧ tp'.tState = tp.tState := by
  have hpresent : ∀ tp : Tcpcb, reassPresent null tp so = some (fin, tp', so') →
      Conn.Same ⟨so, tp⟩ ⟨so', tp'⟩ ∧ tp'.tfAckNow = tp.tfAckNow ∧ tp'.tState = tp.tState := by
    intro tp h
    rw [reassPresent] at h
    dsimp only at h
    split at h
    · obtain ⟨⟩ := h
      exact ⟨.refl _, rfl, rfl⟩
    · generalize hso : (if so.ssCantRcvMore = true then so else _) = so₁ at h
      have hcc : so₁.soSnd.sbCc = so.soSnd.sbCc := by
        rw [← hso]
        split_ifs <;> rfl
      split_ifs at h
      · obtain ⟨⟩ := h
        exact ⟨.refl _, rfl, rfl⟩
      · obtain ⟨⟩ := h
        exact ⟨⟨rfl, rfl, hcc, rfl, rfl⟩, rfl, rfl⟩
  cases ti with
  | none => exact hpresent tp h
  | some ti =>
      rw [tcpReass] at h
      split at h
      · obtain ⟨⟩ := h
        exact ⟨.refl _, rfl, rfl⟩
      · have hsame := hpresent _ h
        exact ⟨⟨hsame.1.una, hsame.1.max, hsame.1.cc, hsame.1.rexmt, hsame.1.persist⟩, hsame.2⟩

theorem tcpDooption_same (mem : ℕ → Byte) (syn : Bool) (rt : Option Rtentry) (p : ℕ) (r : OptionState) :
    Conn.Same ⟨r.so, r.tp⟩ ⟨(tcpDooption mem syn rt p r).1.so, (tcpDooption mem syn rt p r).1.tp⟩ := by
  rw [tcpDooption]
  dsimp only
  generalize (if optionUsed mem syn p = true then [p] else []) = used
  split_ifs
  · exact .refl _
  · exact .refl _
  · exact (tcpMss_same rt r.so r.tp _).1
  · exact ⟨rfl, rfl, rfl, rfl, rfl⟩
  · exact .refl _
  · exact .refl _

theorem tcpDooptions_same {mem : ℕ → Byte} {syn : Bool} {rt : Option Rtentry} {fuel cnt : ℕ} {r r' : OptionState}
    (h : tcpDooptions mem syn rt fuel cnt r = some r') : Conn.Same ⟨r.so, r.tp⟩ ⟨r'.so, r'.tp⟩ := by
  have hstep : ∀ (p : ℕ) (q q' : OptionState) (next : Option ℕ), tcpDooption mem syn rt p q = (q', next) →
      Conn.Same ⟨r.so, r.tp⟩ ⟨q.so, q.tp⟩ → Conn.Same ⟨r.so, r.tp⟩ ⟨q'.so, q'.tp⟩ := by
    intro p q q' next hact hsame
    have hone := tcpDooption_same mem syn rt p q
    rw [hact] at hone
    exact hsame.trans hone
  exact walk_invariant (I := fun _ q => Conn.Same ⟨r.so, r.tp⟩ ⟨q.so, q.tp⟩) (J := fun q => Conn.Same ⟨r.so, r.tp⟩ ⟨q.so, q.tp⟩)
    (fun _ _ _ hsame => hsame) (fun p q q' _ hsame hact => hstep p q q' none hact hsame)
    (fun p q q' len _ hsame hact => hstep p q q' (some len) hact hsame) (.refl _) h

/-! ## The parts -/

namespace Incoming

theorem step6_same (x : Incoming) : Conn.Same x.toConn x.step6.toConn ∧ x.step6.tp.tfAckNow = x.tp.tfAckNow := by
  rw [step6]
  split_ifs <;> exact ⟨⟨rfl, rfl, rfl, rfl, rfl⟩, rfl⟩

theorem urgent_same (x : Incoming) : Conn.Same x.toConn x.urgent.toConn ∧ x.urgent.tp.tfAckNow = x.tp.tfAckNow := by
  rw [urgent]
  dsimp only
  split_ifs <;> exact ⟨⟨rfl, rfl, rfl, rfl, rfl⟩, rfl⟩

theorem dodata_same {fin : Bool} (h : x.dodata = some (y, fin)) :
    Conn.Same x.toConn y.toConn ∧ (x.tp.tfAckNow = true → y.tp.tfAckNow = true) := by
  rw [dodata] at h
  split_ifs at h
  · obtain ⟨⟩ := h
    exact ⟨⟨rfl, rfl, rfl, rfl, rfl⟩, id⟩
  · obtain ⟨⟨fin', tp, so⟩, hreass, heq⟩ := Option.map_eq_some_iff.mp h
    obtain ⟨⟩ := heq
    have hsame := (tcpReass_same hreass).1
    exact ⟨⟨hsame.una, hsame.max, hsame.cc, hsame.rexmt, hsame.persist⟩, fun _ => rfl⟩
  · obtain ⟨⟩ := h
    exact ⟨.refl _, id⟩

/-- The timers are stopped for a FIN only if an acknowledgement is due. -/
theorem fin_same (x : Incoming) : (Conn.Same x.toConn x.fin ∧ (x.tp.tfAckNow = true → x.fin.tp.tfAckNow = true)) ∨
    x.fin.tp.tfAckNow = true := by
  rw [fin]
  split_ifs with hfin
  · have hstate : x.tp.tState = .timeWait := by
      cases hs : x.tp.tState <;> rw [hs] at hfin <;> first | rfl | exact absurd hfin (by decide)
    rw [finState, hstate]
    exact .inl ⟨⟨rfl, rfl, rfl, rfl, rfl⟩, id⟩
  · refine .inr ?_
    rw [finState]
    split <;> rfl

/-- From `step6` on, a connection that stalls gets to `tcp_output`. -/
theorem finish_right (h : x.NoStall ∨ needoutput = true ∨ x.tp.tfAckNow = true) : Exit (x.finish needoutput) := by
  intro r hr
  obtain ⟨⟨y, fin⟩, hdata, rfl⟩ := Option.map_eq_some_iff.mp hr
  obtain ⟨hsame6, hack6⟩ := x.step6_same
  obtain ⟨hsameu, hacku⟩ := x.step6.urgent_same
  obtain ⟨hsamed, hackd⟩ := dodata_same hdata
  have hsame : Conn.Same x.toConn y.toConn := (hsame6.trans hsameu).trans hsamed
  have hack : x.tp.tfAckNow = true → y.tp.tfAckNow = true := fun hx => hackd (hacku.trans (hack6.trans hx))
  have hend : (Conn.Same x.toConn (if fin then y.fin else y.toConn) ∧
      (x.tp.tfAckNow = true → (if fin then y.fin else y.toConn).tp.tfAckNow = true)) ∨
      (if fin then y.fin else y.toConn).tp.tfAckNow = true := by
    cases fin with
    | false => exact .inl ⟨hsame, hack⟩
    | true =>
        rcases y.fin_same with ⟨hfin, hackf⟩ | hackf
        · exact .inl ⟨hsame.trans hfin, fun hx => hackf (hack hx)⟩
        · exact .inr hackf
  dsimp only
  generalize (if fin then y.fin else y.toConn) = s at hend ⊢
  split_ifs with hout
  · trivial
  · rw [not_or, not_or] at hout
    rcases hend with ⟨hs, hacks⟩ | hacks
    · rcases h with hno | hneed | hx
      · exact hs.noStall_iff.mpr hno
      · exact absurd hneed hout.1
      · exact absurd (hacks hx) hout.2.2
    · exact absurd hacks hout.2.2

theorem dropafterack_right {α : Type} {Q : α → Prop} (h : x.tiflags.thRst = true → x.NoStall) :
    Leaves Exit Q (x.dropafterack (α := α)) := by
  rw [Incoming.dropafterack]
  split_ifs with hrst
  · exact exit_idle.mpr (h hrst)
  · exact exit_callOutput _ _

theorem duplicate_right (h : x.NoStall) : Leaves Exit (fun r => r.1.NoStall ∨ r.2 = true) x.duplicate := by
  rw [duplicate]
  dsimp only
  split_ifs
  · exact .inl h
  · rw [fastRexmt]
    split
    · exact exit_none
    · exact exit_callOutput _ _
  · exact exit_callOutput _ _
  · exact .inl h
  · exact .inl h

theorem dropAcked_spec {ourfinisacked : Bool} (h : x.dropAcked = some (y, ourfinisacked)) :
    y.tp.tTimer = x.tp.tTimer ∧ y.tiflags = x.tiflags ∧ y.tp.tState = x.tp.tState ∧
      (ourfinisacked = true ↔ x.so.soSnd.sbCc < x.ti.tiAck - x.tp.sndUna) := by
  obtain ⟨soSnd, -, heq⟩ := Option.map_eq_some_iff.mp h
  obtain ⟨⟩ := heq
  exact ⟨rfl, rfl, rfl, decide_eq_true_iff⟩

theorem ackState_right {ourfinisacked : Bool} (hrst : x.tiflags.thRst = false) :
    Leaves Exit (fun y => ¬ (x.tp.tState = .closing ∧ ourfinisacked = true) → x.tp.TimerRuns → y.tp.TimerRuns)
      (x.ackState ourfinisacked) := by
  rw [ackState]
  split
  · dsimp only
    split_ifs <;> exact fun _ hruns => hruns
  · rename_i hstate
    split_ifs with hfin
    · exact fun hnot => absurd ⟨hstate, hfin⟩ hnot
    · exact fun _ hruns => hruns
  · split_ifs
    · exact exit_gone
    · exact fun _ hruns => hruns
  · exact dropafterack_right fun h => absurd (hrst.symm.trans h) Bool.false_ne_true
  · exact fun _ hruns => hruns

/-- What the time to a retransmission comes from. -/
theorem timeAck_tRxtcur (tp tp' : Tcpcb) (hsrtt : tp'.tSrtt = tp.tSrtt) (hvar : tp'.tRttvar = tp.tRttvar)
    (hmin : tp'.tRttmin = tp.tRttmin) (hcur : tp'.tRxtcur = tp.tRxtcur) (hrtt : tp'.tRtt = tp.tRtt)
    (hseq : tp'.tRtseq = tp.tRtseq) (tsPresent : Bool) (tsEcr tcpNow tiAck : BitVec 32) :
    (tp'.timeAck tsPresent tsEcr tcpNow tiAck).tRxtcur = (tp.timeAck tsPresent tsEcr tcpNow tiAck).tRxtcur := by
  have hxmit : ∀ rtt, (tcpXmitTimer tp' rtt).tRxtcur = (tcpXmitTimer tp rtt).tRxtcur := by
    intro rtt
    rw [tcpXmitTimer, tcpXmitTimer, hsrtt, hvar]
    dsimp only
    split_ifs <;> dsimp only [Tcpcb.tcpRexmtval] <;> rw [hmin]
  simp only [Tcpcb.timeAck, apply_ite (fun u : Tcpcb => u.tRxtcur), hxmit, hrtt, hseq, hcur]

/-- If something is left to be acknowledged, a timer runs for it. -/
theorem ackTimer_runs {tp : Tcpcb} {tiAck : BitVec 32} (hne : tiAck ≠ tp.sndMax)
    (hcur : tp.tTimer .persist = 0 → tp.tRxtcur ≠ 0) : (tp.ackTimer tiAck).TimerRuns := by
  rw [Tcpcb.ackTimer, if_neg hne]
  split_ifs with hpersist
  · refine .inl ?_
    rw [Tcpcb.setTimer]
    dsimp only
    rw [Function.update_self]
    exact hcur hpersist
  · exact .inr hpersist

theorem ackTimer_keeps (tp : Tcpcb) (tiAck : BitVec 32) : (tp.ackTimer tiAck).tState = tp.tState ∧
    (tp.ackTimer tiAck).sndUna = tp.sndUna ∧ (tp.ackTimer tiAck).sndMax = tp.sndMax := by
  rw [Tcpcb.ackTimer]
  split_ifs <;> exact ⟨rfl, rfl, rfl⟩

/-- The connection when `ti_ack` is new: a timer runs if something is left to be acknowledged. -/
theorem newAck_spec (x : Incoming) {tp : Tcpcb}
    (htp : ((x.tp.endDupacks.timeAck x.tsPresent x.tsEcr x.env.tcpNow x.ti.tiAck).ackTimer x.ti.tiAck).openWindow = tp) :
    tp.tState = x.tp.tState ∧ tp.sndUna = x.tp.sndUna ∧ (x.ti.tiAck ≠ x.tp.sndMax →
      (x.tp.tTimer .persist = 0 → (x.tp.timeAck x.tsPresent x.tsEcr x.env.tcpNow x.ti.tiAck).tRxtcur ≠ 0) →
        tp.TimerRuns) := by
  have hsame := x.tp.endDupacks.timeAck_same x.so x.tsPresent x.tsEcr x.env.tcpNow x.ti.tiAck
  have hcur : (x.tp.endDupacks.timeAck x.tsPresent x.tsEcr x.env.tcpNow x.ti.tiAck).tRxtcur =
      (x.tp.timeAck x.tsPresent x.tsEcr x.env.tcpNow x.ti.tiAck).tRxtcur := timeAck_tRxtcur x.tp x.tp.endDupacks rfl rfl rfl rfl rfl rfl _ _ _ _
  have hstate : (x.tp.endDupacks.timeAck x.tsPresent x.tsEcr x.env.tcpNow x.ti.tiAck).tState = x.tp.tState := by
    rw [Tcpcb.timeAck]
    split_ifs
    · exact (tcpXmitTimer_keeps _ _).1
    · exact (tcpXmitTimer_keeps _ _).1
    · rfl
  subst htp
  generalize x.tp.endDupacks.timeAck x.tsPresent x.tsEcr x.env.tcpNow x.ti.tiAck = tp at hsame hcur hstate ⊢
  obtain ⟨hstate', huna, -⟩ := ackTimer_keeps tp x.ti.tiAck
  refine ⟨hstate'.trans hstate, huna.trans hsame.una, fun hne htime => ?_⟩
  exact ackTimer_runs (fun hall => hne (hall.trans hsame.max)) fun hpersist => by
    rw [hcur]
    exact htime (hsame.persist.symm.trans hpersist)

theorem acknowledge_right (h : x.NoStall) (hrst : x.tiflags.thRst = false) (hok : x.AckOk) :
    Leaves Exit (fun r => r.1.NoStall ∨ r.2 = true) x.acknowledge := by
  rw [acknowledge]
  dsimp only
  split_ifs with hnew hmax
  · exact duplicate_right h
  · exact dropafterack_right fun hrst' => absurd (hrst.symm.trans hrst') Bool.false_ne_true
  · split
    · exact exit_none
    · rename_i y ourfinisacked hdrop
      obtain ⟨hst, huna, hruns⟩ := x.newAck_spec rfl
      obtain ⟨htimer, hflags, hstate, hfin⟩ := dropAcked_spec hdrop
      refine (ackState_right (by rw [hflags]; exact hrst)).bind fun z hz => ?_
      by_cases hall : x.ti.tiAck = x.tp.sndMax
      · exact .inr (decide_eq_true hall)
      · obtain ⟨hclosing, hcur⟩ := hok hnew hmax hall
        refine .inl fun _ => hz ?_ ?_
        · rintro ⟨hclosed, hf⟩
          dsimp only at hfin
          rw [hfin, huna] at hf
          exact absurd (hclosing (hst.symm.trans (hstate.symm.trans hclosed))) (BitVec.not_le.mpr hf)
        · rw [Tcpcb.TimerRuns, htimer]
          exact hruns hall hcur

theorem recent_same (x : Incoming) (len : BitVec 32) : Conn.Same x.toConn (x.recent len).toConn := by
  rw [recent]
  split_ifs <;> exact ⟨rfl, rfl, rfl, rfl, rfl⟩

/-- The short way for an acknowledgement. -/
theorem acked_right (hcur : x.ti.tiAck ≠ x.tp.sndMax →
    ∀ soSnd ∈ sbdrop x.so.soSnd (x.ti.tiAck - x.tp.sndUna).toInt, soSnd.sbCc = 0 → x.tp.tTimer .persist = 0 →
      (x.tp.timeAck x.tsPresent x.tsEcr x.env.tcpNow x.ti.tiAck).tRxtcur ≠ 0) : Exit x.acked := by
  intro r hr
  obtain ⟨soSnd, hdrop, hret⟩ := Option.bind_eq_some_iff.mp hr
  obtain rfl := Option.some.inj hret
  by_cases hcc : soSnd.sbCc = 0
  · have hsame := x.tp.timeAck_same x.so x.tsPresent x.tsEcr x.env.tcpNow x.ti.tiAck
    rw [if_neg (not_not.mpr hcc)]
    generalize x.tp.timeAck x.tsPresent x.tsEcr x.env.tcpNow x.ti.tiAck = tp at hcur hsame ⊢
    rintro hout
    by_cases hall : x.ti.tiAck = x.tp.sndMax
    · -- nothing is left
      rcases hout with hne | hne
      · refine absurd ?_ hne
        exact hall.trans (hsame.max.symm.trans (ackTimer_keeps tp x.ti.tiAck).2.2.symm)
      · exact absurd hcc hne
    · refine ackTimer_runs (fun h => hall (h.trans hsame.max)) fun hpersist => ?_
      exact hcur hall soSnd hdrop hcc (hsame.persist.symm.trans hpersist)
  · rw [if_pos hcc]
    trivial

theorem predict_right (h : x.NoStall) (hok : x.FastOk) : Leaves Exit (fun y => y.NoStall) x.predict := by
  have hsame := x.recent_same (x.ti.tiLen.signExtend 32)
  rw [predict]
  dsimp only
  split_ifs with hpred hfast hdata
  · refine acked_right ?_
    have hok := hok hfast
    rw [recent]
    split_ifs
    · dsimp only
      rwa [timeAck_tRxtcur x.tp { x.tp with tsRecentAge := x.env.tcpNow, tsRecent := x.tsVal } rfl rfl rfl rfl rfl rfl]
    · exact hok
  · exact exit_idle.mpr (hsame.noStall_iff.mpr h)
  · exact hsame.noStall_iff.mpr h
  · exact h

theorem listen_right (h : x.NoStall) : Exit (some x.listen) := by
  rw [listen]
  split_ifs
  · exact exit_idle.mpr h
  · exact exit_gone
  · exact exit_idle.mpr h

theorem established_same (x : Incoming) : Leaves Exit (fun y => Conn.Same x.toConn y.toConn ∧
    y.tp.tfAckNow = x.tp.tfAckNow ∧ y.tiflags = x.tiflags) x.established := by
  rw [established]
  dsimp only
  split
  · exact exit_none
  · rename_i hreass
    obtain ⟨hsame, hack, -⟩ := tcpReass_same hreass
    have hscaled := Tcpcb.scaled_same { x.tp with tState := .established } x.so.isConnected
    have hack' : ({ x.tp with tState := .established } : Tcpcb).scaled.tfAckNow = x.tp.tfAckNow := by
      rw [Tcpcb.scaled]
      split_ifs <;> rfl
    have hconn : Conn.Same x.toConn ⟨x.so.isConnected, { x.tp with tState := .established }⟩ := ⟨rfl, rfl, rfl, rfl, rfl⟩
    exact ⟨(hconn.trans hscaled).trans hsame, hack.trans hack', rfl⟩

theorem trimSyn_tfAckNow (x : Incoming) : x.trimSyn.tp.tfAckNow = x.tp.tfAckNow := by
  rw [trimSyn]
  dsimp only
  split_ifs <;> rfl

/-- Behind a SYN in `TCPS_SYN_SENT` an acknowledgement is due. -/
theorem synSent_right (h : x.NoStall) : Leaves Exit (fun y => y.tp.tfAckNow = true) x.synSent := by
  rw [synSent]
  dsimp only
  by_cases hbad : x.tiflags.thAck = true ∧ (seqLEQ x.ti.tiAck x.tp.iss ∨ seqGT x.ti.tiAck x.tp.sndMax)
  · rw [if_pos hbad]
    exact exit_idle.mpr h
  rw [if_neg hbad]
  by_cases hrst : x.tiflags.thRst = true
  · rw [if_pos hrst, leaves_throw]
    split_ifs
    · exact exit_gone
    · exact exit_idle.mpr h
  rw [if_neg hrst]
  by_cases hsyn : ¬ x.tiflags.thSyn = true
  · rw [if_pos hsyn]
    exact exit_idle.mpr h
  rw [if_neg hsyn]
  generalize (if x.tiflags.thAck = true then _ else x.tp) = tp
  split_ifs
  · refine (established_same _).bind ?_
    rintro y ⟨-, hack, -⟩
    rw [leaves_pure, trimSyn_tfAckNow]
    dsimp only
    split_ifs
    · exact (tcpXmitTimer_keeps _ _).2.trans hack
    · exact hack
  · rw [leaves_pure, trimSyn_tfAckNow]

theorem paws_right (h : x.NoStall) : Leaves Exit (fun y => y.NoStall) x.paws := by
  rw [paws]
  split_ifs
  · exact h
  · exact dropafterack_right fun _ => h
  · exact h

theorem trimLeft_same (so : Socket) (tp : Tcpcb) (ti : Tcpiphdr) (tiflags : TcpFlags) (m : List Mbuf) :
    Conn.Same ⟨so, tp⟩ ⟨so, (trimLeft mAdj tp ti tiflags m).1⟩ := by
  rw [trimLeft]
  dsimp only
  split_ifs <;> exact ⟨rfl, rfl, rfl, rfl, rfl⟩

theorem trim_same {so : Socket} {tp tp' : Tcpcb} {ti ti' : Tcpiphdr} {tiflags tiflags' : TcpFlags} {m m' : List Mbuf}
    (h : trim mAdj so tp ti tiflags m = .pass tp' ti' tiflags' m') : Conn.Same ⟨so, tp⟩ ⟨so, tp'⟩ := by
  have hleft := trimLeft_same so tp ti tiflags m
  rw [trim] at h
  generalize trimLeft mAdj tp ti tiflags m = l at h hleft
  obtain ⟨tp₁, ti₁, tiflags₁, m₁⟩ := l
  refine hleft.trans ?_
  dsimp only at h
  rw [trimRight] at h
  simp only [cutRight, Net.dropafterack] at h
  split_ifs at h
  all_goals
    obtain ⟨⟩ := h
    exact ⟨rfl, rfl, rfl, rfl, rfl⟩

theorem trimmed_right (h : x.NoStall) : Leaves Exit (fun y => y.NoStall) x.trimmed := by
  rw [trimmed]
  split
  · exact exit_idle.mpr ((trimLeft_same x.so x.tp x.ti x.tiflags x.m).noStall_iff.mpr h)
  · exact exit_callOutput _ _
  · exact exit_gone
  · exact exit_gone
  · rename_i htrim
    exact (trim_same htrim).noStall_iff.mpr h

theorem checkFlags_right (h : x.NoStall) :
    Leaves Exit (fun y => y.NoStall ∧ y.tiflags.thRst = false) x.checkFlags := by
  rw [checkFlags]
  split_ifs with hrst
  · exact exit_gone
  · exact exit_gone
  · exact ⟨h, eq_false_of_ne_true hrst⟩
  · exact exit_idle.mpr h

theorem synReceived_right (h : x.NoStall) (hrst : x.tiflags.thRst = false) :
    Leaves Exit (fun y => y.NoStall ∧ y.tiflags.thRst = false) x.synReceived := by
  rw [synReceived]
  split_ifs
  · exact exit_idle.mpr h
  · refine (established_same x).bind ?_
    rintro y ⟨hsame, -, hflags⟩
    rw [leaves_pure]
    refine ⟨?_, (congrArg TcpFlags.thRst hflags).trans hrst⟩
    exact hsame.noStall_iff.mpr h
  · exact ⟨h, hrst⟩

/-- From `ti_ack` on. -/
theorem inputAck_right (h : x.NoStall) (hrst : x.tiflags.thRst = false) (hok : x.AckOk) : Exit x.inputAck := by
  refine Leaves.leave ((acknowledge_right h hrst hok).bind ?_)
  rintro ⟨y, needoutput⟩ hy
  exact finish_right (hy.imp_right .inl)

end Incoming

/-- A segment leaves no timer off on the way to `ti_ack`. -/
def Conn.InputOk (s : Conn) (a : Arrival) (env : InputEnv) : Prop :=
  env.soAcceptconn = false → ∀ x ∈ s.incoming a env, x.FastOk

instance Conn.decidableInputOk (s : Conn) (a : Arrival) (env : InputEnv) : Decidable (s.InputOk a env) :=
  have : Decidable (∀ x ∈ s.incoming a env, x.FastOk) := Option.decidableForallMem _
  inferInstanceAs (Decidable (_ → _))

theorem Conn.incoming_same {a : Arrival} {env : InputEnv} (hx : s.incoming a env = some x) : Conn.Same s x.toConn := by
  rw [incoming] at hx
  dsimp only at hx
  generalize (if a.ti.tiFlags.thSyn = true then a.ti.tiWin.setWidth 32 else a.ti.tiWin.setWidth 32 <<< s.tp.sndScale) = tiwin at hx
  split_ifs at hx
  · obtain ⟨⟩ := hx
    exact ⟨rfl, rfl, rfl, rfl, rfl⟩
  · obtain ⟨⟩ := hx
    exact ⟨rfl, rfl, rfl, rfl, rfl⟩
  · obtain ⟨r, hopt, hr⟩ := Option.map_eq_some_iff.mp hx
    obtain ⟨⟩ := hr
    have hsame := tcpDooptions_same hopt
    exact ⟨hsame.una, hsame.max, hsame.cc, hsame.rexmt, hsame.persist⟩

/-- Up to `ti_ack`. -/
theorem Conn.input_right {a : Arrival} {env : InputEnv} (h : s.NoStall) (hok : s.InputOk a env) :
    Exit (s.input a env) := by
  rw [input]
  split_ifs with hclosed
  · exact exit_idle.mpr h
  · intro r hr
    have hok := hok (eq_false_of_ne_true fun hacc => hclosed (.inr hacc))
    obtain ⟨x, hx, hr⟩ := Option.bind_eq_some_iff.mp hr
    refine Leaves.leave (E := Exit) ?_ r hr
    refine (Incoming.predict_right ((Conn.incoming_same hx).noStall_iff.mpr h) (hok x hx)).bind ?_
    intro y hy
    have hy : Conn.NoStall ⟨y.so, setRcvWnd y.so y.tp⟩ := hy
    generalize hz : ({ y with tp := setRcvWnd y.so y.tp } : Incoming) = z
    have hz : z.NoStall := hz ▸ hy
    dsimp only
    split
    · exact Incoming.listen_right hz
    · refine (Incoming.synSent_right hz).bind fun w hw => ?_
      exact Incoming.finish_right (.inr (.inr hw))
    · refine (Incoming.paws_right hz).bind fun w hw => ?_
      refine (Incoming.trimmed_right hw).bind fun w hw => ?_
      refine (Incoming.checkFlags_right ((w.recent_same _).noStall_iff.mpr hw)).bind ?_
      rintro w ⟨hw, hrst⟩
      refine (Incoming.synReceived_right hw hrst).bind fun w hw => ?_
      rintro r ⟨⟩
      exact hw

end

end Shaunos.Net
