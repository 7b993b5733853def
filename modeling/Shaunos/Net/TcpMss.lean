import Shaunos.Net.TcpXmitTimer

/-!
# The size of a segment

Reference: `Kernel/netinet/tcp_input.c` (`tcp_mss`), `Kernel/net/uipc_socket2.c` (`sbreserve`),
`Include/kernel/net/route.h`.

The size comes from the route, the interface, the offer of the peer and the socket buffers, in this order.
-/

namespace Shaunos.Net

def sbMAX : BitVec 32 := 256 * 1024

/-- `sbreserve`. -/
def sbreserve (sb : SockBuf) (cc : BitVec 32) : Bool × SockBuf :=
  if sbMAX.toNat * mCLBYTES / (mSIZE + mCLBYTES) < cc.toNat then (false, sb)
  else (true, { sb with
    sbHiwat := cc
    sbMbmax := if sbMAX < cc * 2 then sbMAX else cc * 2 })

/-- `struct rt_metrics`, as far as a connection uses it. -/
structure RtMetrics where
  /-- `rmx_locks & RTV_RTT`. -/
  rmxLockRtt : Bool
  rmxMtu : BitVec 32
  rmxRecvpipe : BitVec 32
  rmxSendpipe : BitVec 32
  rmxSsthresh : BitVec 32
  rmxRtt : BitVec 32
  rmxRttvar : BitVec 32

/-- `struct rtentry`, as far as a connection uses it. -/
structure Rtentry where
  rtRmx : RtMetrics
  /-- `rt_ifp->if_mtu`. -/
  ifMtu : BitVec 32
  /-- `in_localaddr` of the peer. -/
  inLocaladdr : Bool

/-- `sizeof (struct tcpiphdr)`. -/
def sizeofTcpiphdr : BitVec 32 := 40

/-- The times that a route has. -/
def tcpMssTimes (rmx : RtMetrics) (tp : Tcpcb) : Tcpcb :=
  let rtt := rmx.rmxRtt.toInt
  if tp.tSrtt = 0 ∧ rtt ≠ 0 then
    let tRttmin := if rmx.rmxLockRtt then short (rtt.tdiv (1000000 / 2)) else tp.tRttmin
    let tSrtt := short (rtt.tdiv (1000000 / (2 * 8)))
    let tRttvar :=
      if rmx.rmxRttvar ≠ 0 then short (rmx.rmxRttvar.toNat / (1000000 / (2 * 4)) : ℕ)
      else short ((tSrtt.toInt * 4).tdiv 8)
    { tp with
      tRttmin, tSrtt, tRttvar
      tRxtcur := tcptRangeset ((tSrtt.toInt >>> (2 : ℕ) + tRttvar.toInt) >>> (1 : ℕ)) tRttmin.toNat tcptvREXMTMAX }
  else tp

/-- What the route and the interface allow. -/
def mssLimit (rt : Rtentry) : ℤ :=
  if rt.rtRmx.rmxMtu ≠ 0 then (rt.rtRmx.rmxMtu - sizeofTcpiphdr).toInt
  else
    let mss := (rt.ifMtu - sizeofTcpiphdr).toInt
    let mss := if mCLBYTES < mss then mss - mss % mCLBYTES else mss
    if rt.inLocaladdr then mss else min mss tcpMssdflt

/-- Together with what the peer offers; an offer of 0 is none. -/
def mssOffered (rt : Rtentry) (offer : BitVec 16) : ℕ :=
  (max (if offer ≠ 0 then min (mssLimit rt) offer.toNat else mssLimit rt) 32).toNat

/-- `roundup`, at most `sb_max`. A size of 0 is a fault on the machine. -/
def roundupSb (bufsize mss : BitVec 32) : BitVec 32 :=
  let bufsize := (bufsize + (mss - 1)) / mss * mss
  if sbMAX < bufsize then sbMAX else bufsize

/-- The size of the send buffer, from the route or as it is. -/
def mssBufsize (rt : Rtentry) (so : Socket) : BitVec 32 :=
  if rt.rtRmx.rmxSendpipe = 0 then so.soSnd.sbHiwat else rt.rtRmx.rmxSendpipe

/-- `tcp_mss`. -/
def tcpMss (rt : Option Rtentry) (so : Socket) (tp : Tcpcb) (offer : BitVec 16) : ℕ × Socket × Tcpcb :=
  match rt with
  | none => (tcpMssdflt, so, tp)
  | some rt =>
      let tp := tcpMssTimes rt.rtRmx tp
      let mss := mssOffered rt offer
      let (mss, so, tp) :=
        if mss < tp.tMaxseg.toNat ∨ offer ≠ 0 then
          let bufsize := mssBufsize rt so
          let (mss, so) :=
            if bufsize.toNat < mss then (bufsize.toNat, so)
            else (mss, { so with soSnd := (sbreserve so.soSnd (roundupSb bufsize (BitVec.ofNat 32 mss))).2 })
          let bufsize := if rt.rtRmx.rmxRecvpipe = 0 then so.soRcv.sbHiwat else rt.rtRmx.rmxRecvpipe
          let so :=
            if mss < bufsize.toNat then
              { so with soRcv := (sbreserve so.soRcv (roundupSb bufsize (BitVec.ofNat 32 mss))).2 }
            else so
          (mss, so, { tp with tMaxseg := BitVec.ofNat 16 mss })
        else (mss, so, tp)
      (mss, so, { tp with
        sndCwnd := BitVec.ofNat 32 mss
        sndSsthresh :=
          if rt.rtRmx.rmxSsthresh ≠ 0 then BitVec.ofNat 32 (max (2 * mss) rt.rtRmx.rmxSsthresh.toNat)
          else tp.sndSsthresh })

end Shaunos.Net
