import Shaunos.Net.IpFrag
import Shaunos.Net.IpOptcopy
import Shaunos.Net.UdpInput

/-!
# Sending a packet

Reference: `Kernel/netinet/ip_output.c` (`ip_output`, `ip_insert_options`), `Kernel/mbuf.c` (`m_free`, `m_freem`,
`_m_copym`, `m_adj`).

Who holds an mbuf, and how long mbufs are. If options get an mbuf of their own, that mbuf is the first one of the
packet, but `bad` frees from `m0` on, which still names the second one. The loop at `sendorfree` frees with `m_free`,
which is the first mbuf of each packet only. If the options do not fit, or if there is no mbuf for them, `len` has no
value.

* `outFragments_spec` — what the loop that makes fragments leaves behind, whatever fails;
* `Headed.bad_iff`, `Headed.send_iff`, `Headed.frag_iff` — one for each exit;
* `ipOutput_rightIff` — when each mbuf is sent or freed once, with headers that are right.
-/

namespace Shaunos.Net

/-! ## The code -/

def iP_FORWARDING : BitVec 32 := 0x1
def iP_RAWOUTPUT : BitVec 32 := 0x2
def iP_ROUTETOIF : BitVec 32 := 0x0010
def iP_ALLOWBROADCAST : BitVec 32 := 0x0020

def iP_MAXPACKET : ℕ := 65535
def iPVERSION : BitVec 4 := 4
def iP_DEFAULT_MULTICAST_TTL : Byte := 1

/-- An mbuf that `ip_output` is called with, or the one that an allocation has found. -/
inductive MbufId where
  | given (i : ℕ)
  | made (i : ℕ)
deriving DecidableEq

/-- `struct mbuf`, without its bytes. -/
structure OutMbuf where
  id : MbufId
  /-- `m_flags & M_EXT` -/
  mExt : Bool
  /-- `m_data - m_pktdat`, without a cluster. -/
  mData : ℕ
  mLen : ℕ

/-- A packet. -/
structure OutPkt where
  m : OutMbuf
  /-- The mbufs behind the first one. -/
  mNext : List OutMbuf
  mPkthdrLen : ℤ
  ip : Ip
  /-- The memory from the header on. What is there of `ip` is not read. -/
  mem : ℕ → Byte
  /-- The bytes that the header has, with its options. No code reads this. -/
  hdr : ℕ

/-- `opt`: the bytes of the options, as many as an option mbuf holds. -/
structure OutOpt where
  ipoptDst : InAddr
  ipoptList : List Byte
  length_le : ipoptList.length ≤ mAX_IPOPTLEN

/-- `struct ifnet` -/
structure OutIf extends RcvIf where
  /-- Tells interfaces apart. -/
  index : ℕ
  ifMtu : BitVec 32
  /-- `if_flags & IFF_MULTICAST` -/
  iffMulticast : Bool

/-- `struct in_ifaddr` -/
structure OutIa where
  iaIfp : OutIf
  sinAddr : InAddr

/-- `struct rtentry` -/
structure OutRt where
  /-- `rt_flags & RTF_UP` -/
  rtfUp : Bool
  /-- The address in `rt_gateway`, with `RTF_GATEWAY`. -/
  rtGateway : Option InAddr
  rtIfa : OutIa
  rtIfp : OutIf

/-- `struct route` -/
structure OutRoute where
  roRt : Option OutRt
  roDst : InAddr

/-- `struct ip_moptions` -/
structure OutMoptions where
  imoMulticastIfp : Option OutIf
  imoMulticastTtl : Byte

/-- What `ip_output` meets: which allocations find memory, what `if_output` returns, and what there is of addresses
and routes. -/
structure IpOutEnv where
  alloc : ℕ → Bool
  ifOutput : ℕ → ℤ
  ipId : BitVec 16
  inCksum : OutPkt → (len : ℕ) → BitVec 16
  ifaIfwithdstaddr : InAddr → Option OutIa
  ifaIfwithnet : InAddr → Option OutIa
  rtalloc : InAddr → Option OutRt
  inIfaddr : List OutIa

/-- How many allocations were tried, the mbufs that were freed, and the packets that `if_output` got. -/
structure OutState where
  tries : ℕ
  freed : List MbufId
  sent : List OutPkt

namespace Ip

/-- `ip_hl` -/
def ipHl (ip : Ip) : BitVec 4 := ip.ipVhl.extractLsb' 0 4

def setHl (ip : Ip) (hl : BitVec 4) : Ip := { ip with ipVhl := ip.ipVhl.extractLsb' 4 4 ++ hl }

def setVersion (ip : Ip) (v : BitVec 4) : Ip := { ip with ipVhl := v ++ ip.ipHl }

end Ip

namespace OutPkt

variable (p : OutPkt)

def chain : List OutMbuf := p.m :: p.mNext

def ids : List MbufId := p.chain.map OutMbuf.id

/-- The bytes of the packet. -/
def len : ℕ := (p.chain.map OutMbuf.mLen).sum

end OutPkt

namespace OutState

variable (s : OutState)

def mFreem (ids : List MbufId) : OutState := { s with freed := s.freed ++ ids }

def mFree (m : OutMbuf) : OutState := s.mFreem [m.id]

end OutState

section

variable (e : IpOutEnv)

/-- `(*ifp->if_output) (ifp, m, …)` -/
def ifOutput (p : OutPkt) (s : OutState) : ℤ × OutState :=
  (e.ifOutput s.sent.length, { s with sent := s.sent ++ [p] })

/-- `m_get` and `m_gethdr` -/
def mGet (s : OutState) : Option OutMbuf × OutState :=
  (if e.alloc s.tries then some ⟨.made s.tries, false, 0, 0⟩ else none, { s with tries := s.tries + 1 })

/-- The options do not fit before the first mbuf. -/
def NeedsHeader (m : OutMbuf) (optlen : ℕ) : Prop := m.mExt ∨ m.mData < optlen

instance (m : OutMbuf) (optlen : ℕ) : Decidable (NeedsHeader m optlen) := inferInstanceAs (Decidable (_ ∨ _))

/-- The end of `ip_insert_options`. -/
def OutPkt.putOptions (p : OutPkt) (opt : OutOpt) (m : OutMbuf) (mNext : List OutMbuf) (behind : ℕ → Byte) : OutPkt where
  m := m
  mNext := mNext
  mPkthdrLen := p.mPkthdrLen + opt.ipoptList.length
  ip := { p.ip with ipLen := p.ip.ipLen + BitVec.ofNat 16 opt.ipoptList.length }
  mem := fun a => if a < sizeofIp + opt.ipoptList.length then opt.ipoptList.getD (a - sizeofIp) 0 else behind a
  hdr := p.hdr + opt.ipoptList.length

/-- `ip_insert_options`: the packet, and `*phlen` if it is set. -/
def ipInsertOptions (p : OutPkt) (opt : OutOpt) (s : OutState) : OutPkt × Option ℕ × OutState :=
  let optlen := opt.ipoptList.length
  if iP_MAXPACKET < optlen + p.ip.ipLen.toNat then (p, none, s)
  else
    let p := { p with ip := if opt.ipoptDst ≠ 0 then { p.ip with ipDst := opt.ipoptDst } else p.ip }
    if NeedsHeader p.m optlen then
      match mGet e s with
      | (none, s) => (p, none, s)
      | (some n, s) =>
          let m := { p.m with mLen := p.m.mLen - sizeofIp, mData := p.m.mData + sizeofIp }
          let n := { n with mLen := optlen + sizeofIp, mData := n.mData + maxLinkhdr }
          (p.putOptions opt n (m :: p.mNext) fun _ => 0, some (sizeofIp + optlen), s)
    else
      let m := { p.m with mData := p.m.mData - optlen, mLen := p.m.mLen + optlen }
      (p.putOptions opt m p.mNext fun a => p.mem (a - optlen), some (sizeofIp + optlen), s)

/-- The header exists: `IP_FORWARDING` or `IP_RAWOUTPUT`. -/
def HasHeader (flags : BitVec 32) : Prop := flags &&& (iP_FORWARDING ||| iP_RAWOUTPUT) ≠ 0

instance (flags : BitVec 32) : Decidable (HasHeader flags) := inferInstanceAs (Decidable (_ ≠ _))

/-- `ip_output` until the header is filled in: the packet and `hlen`. It is a fault to use `len` without a value. -/
def ipHeader (p : OutPkt) (opt : Option OutOpt) (flags : BitVec 32) (s : OutState) : Option (OutPkt × ℕ × OutState) :=
  let (p, hlen, s) := match opt with
    | none => (p, some sizeofIp, s)
    | some opt => ipInsertOptions e p opt s
  if HasHeader flags then some (p, 4 * p.ip.ipHl.toNat, s)
  else
    hlen.map fun hlen =>
      let ip := p.ip.setVersion iPVERSION
      let ip := { ip with ipOff := ip.ipOff &&& ipDF, ipId := swap16 e.ipId }
      ({ p with ip := ip.setHl (BitVec.ofNat 4 (hlen / 4)) }, hlen, s)

/-- Where `ip_output` goes once it has looked for a route. -/
inductive OutDecision where
  | bad (error : ℤ)
  /-- `m_freem(m)`, for a time to live of 0. -/
  | drop
  | sendit (ifp : OutIf) (ip : Ip)

/-- `ip_output` from `IN_MULTICAST` to `sendit`. -/
def ipCast (flags : BitVec 32) (imo : Option OutMoptions) (ia : OutIa) (ifp : OutIf) (dst : InAddr) (ip : Ip) :
    OutDecision :=
  if inMulticast (swab32 ip.ipDst) then
    let ip := { ip with ipTtl := imo.elim iP_DEFAULT_MULTICAST_TTL OutMoptions.imoMulticastTtl }
    let ifp := (imo.bind OutMoptions.imoMulticastIfp).getD ifp
    if ifp.iffMulticast = false then .bad (-eNETUNREACH)
    else
      let ipSrc := if ip.ipSrc = iNADDR_ANY then
          ((e.inIfaddr.find? fun ia => ia.iaIfp.index = ifp.index).map OutIa.sinAddr).getD ip.ipSrc
        else ip.ipSrc
      if ip.ipTtl = 0 then .drop else .sendit ifp { ip with ipSrc := ipSrc }
  else
    let ip := { ip with ipSrc := if ip.ipSrc = iNADDR_ANY then ia.sinAddr else ip.ipSrc }
    if inBroadcast dst ifp.toRcvIf then
      if ifp.iffBroadcast = false then .bad (-eADDRNOTAVAIL)
      else if flags &&& iP_ALLOWBROADCAST = 0 then .bad (-eACCES)
      else if ifp.ifMtu.toNat < ip.ipLen.toNat then .bad (-eMSGSIZE)
      else .sendit ifp ip
    else .sendit ifp ip

/-- `ip_output` from the route to `sendit`. -/
def ipRoute (ro : Option OutRoute) (flags : BitVec 32) (imo : Option OutMoptions) (ip : Ip) : OutDecision :=
  let ro := ro.getD ⟨none, 0⟩
  let roRt := ro.roRt.filter fun rt => rt.rtfUp ∧ ro.roDst = ip.ipDst
  let dst := if roRt.isSome then ro.roDst else ip.ipDst
  if flags &&& iP_ROUTETOIF ≠ 0 then
    match (e.ifaIfwithdstaddr dst).or (e.ifaIfwithnet dst) with
    | none => .bad (-eNETUNREACH)
    | some ia => ipCast e flags imo ia ia.iaIfp dst { ip with ipTtl := 1 }
  else
    match roRt.or (e.rtalloc dst) with
    | none => .bad (-eHOSTUNREACH)
    | some rt => ipCast e flags imo rt.rtIfa rt.rtIfp (rt.rtGateway.getD dst) ip

/-- `ip->ip_sum = in_cksum(m, hlen)` -/
def withCksum (p : OutPkt) (hlen : ℕ) : OutPkt :=
  let p := { p with ip := { p.ip with ipSum := 0 } }
  { p with ip := { p.ip with ipSum := e.inCksum p hlen } }

/-! ### Fragments -/

/-- `m_getptr`: the rest of the chain, and the offset in its first mbuf. -/
def getptr : (loc : ℕ) → List OutMbuf → Option (List OutMbuf × ℕ)
  | _, [] => none
  | loc, m :: next =>
      if loc < m.mLen then some (m :: next, loc)
      else if next = [] then if loc - m.mLen = 0 then some ([m], m.mLen) else none
      else getptr (loc - m.mLen) next

/-- The loop of `_m_copym`: the copies, and whether there was no memory. -/
def copyLoop : (len offset : ℕ) → List OutMbuf → OutState → List OutMbuf × Bool × OutState
  | _, _, [], s => ([], false, s)
  | len, offset, m :: next, s =>
      if len = 0 then ([], false, s)
      else
        match mGet e s with
        | (none, s) => ([], true, s)
        | (some n, s) =>
            let n := { n with mLen := min len (m.mLen - offset), mExt := m.mExt }
            let (top, failed, s) := copyLoop (len - n.mLen) 0 next s
            (n :: top, failed, s)

/-- `m_copy`, which returns a null pointer if there is no memory. `m_freem` follows a null pointer. -/
def mCopy (m0 : List OutMbuf) (off len : ℕ) (s : OutState) : Option (List OutMbuf × OutState) :=
  match getptr off m0 with
  | none => some ([], s)
  | some (rest, o) =>
      match copyLoop e len o rest s with
      | (top, false, s) => some (top, s)
      | ([], true, _) => none
      | (n :: top, true, s) => some ([], s.mFreem ((n :: top).map OutMbuf.id))

/-- The tail branch of `m_adj`. -/
def mAdjTail (m : List OutMbuf) (len : ℕ) : List OutMbuf :=
  match m.getLast? with
  | none => []
  | some last =>
      if len ≤ last.mLen then m.dropLast ++ [{ last with mLen := last.mLen - len }]
      else count ((m.map OutMbuf.mLen).sum - len) m
where
  /-- Keep the first `count` bytes. -/
  count : ℕ → List OutMbuf → List OutMbuf
    | _, [] => []
    | n, m :: rest =>
        if n ≤ m.mLen then { m with mLen := n } :: rest.map fun m => { m with mLen := 0 }
        else m :: count (n - m.mLen) rest

/-- `mhip->ip_off`, in host order. -/
def mhipOff (ip : Ip) (hlen off : ℕ) (last : Bool) : BitVec 16 :=
  let ipOff := BitVec.ofNat 16 ((off - hlen) / 8) + (ip.ipOff &&& ~~~ipMF)
  let ipOff := if ip.ipOff &&& ipMF ≠ 0 then ipOff ||| ipMF else ipOff
  if last then ipOff else ipOff ||| ipMF

/-- `*mhip = *ip`, and the options: the header, the memory, and `mhlen`. -/
def mhipOf (p : OutPkt) (hlen : ℕ) : Option (Ip × (ℕ → Byte) × ℕ) :=
  if sizeofIp < hlen then
    (ipOptcopy p.mem p.ip.ipHl (fun _ => 0) (4 * p.ip.ipHl.toNat + 1)).map fun (optlen, mem, _) =>
      (p.ip.setHl (BitVec.ofNat 4 ((optlen + sizeofIp) / 4)), mem, optlen + sizeofIp)
  else some (p.ip, fun _ => 0, sizeofIp)

/-- The loop: `error`, and the fragments that are on the list. -/
def outFragments (p : OutPkt) (hlen : ℕ) : (fuel off len : ℕ) → OutState → Option (ℤ × List OutPkt × OutState)
  | 0, _, _, _ => none
  | fuel + 1, off, len, s =>
      let ipLen := p.ip.ipLen.toNat
      if off < ipLen then
        match mGet e s with
        | (none, s) => some (-eNOBUFS, [], s)
        | (some m, s) => do
            let (mhip, mem, mhlen) ← mhipOf p hlen
            let last : Bool := ipLen ≤ off + len
            let len := if last then ipLen - off else len
            let (mNext, s) ← mCopy e p.chain off len s
            let m := { m with mData := m.mData + maxLinkhdr, mLen := mhlen }
            if mNext = [] then return (eNOBUFS, [], s.mFree m)
            let mhip := { mhip with
              ipLen := htons (BitVec.ofNat 16 (len + mhlen)), ipOff := htons (mhipOff p.ip hlen off last) }
            let x := withCksum e ⟨m, mNext, mhlen + len, mhip, mem, mhlen⟩ mhlen
            let (error, rest, s) ← outFragments p hlen fuel (off + len) len s
            return (error, x :: rest, s)
      else some (0, [], s)

/-- The first fragment: what is left of the packet. -/
def firstFragment (p : OutPkt) (hlen firstlen : ℕ) : OutPkt :=
  match mAdjTail p.chain (p.ip.ipLen.toNat - (hlen + firstlen)) with
  | [] => p
  | m :: mNext =>
      let ip := { p.ip with
        ipLen := htons (BitVec.ofNat 16 (hlen + firstlen)), ipOff := htons (p.ip.ipOff ||| ipMF) }
      withCksum e { p with m := m, mNext := mNext, mPkthdrLen := hlen + firstlen, ip := ip } hlen

/-- The loop at `sendorfree`. -/
def sendorfree : (error : ℤ) → List OutPkt → OutState → ℤ × OutState
  | error, [], s => (error, s)
  | error, p :: rest, s =>
      if error = 0 then
        let (error, s) := ifOutput e p s
        sendorfree error rest s
      else sendorfree error rest (s.mFree p.m)

/-- `ip_output` from `sendit` on. `m0` is what `bad` frees. -/
def ipSenditOut (m0 : List MbufId) (ifp : OutIf) (p : OutPkt) (hlen : ℕ) (s : OutState) : Option (ℤ × OutState) :=
  let ip := p.ip
  if ip.ipLen.toNat ≤ ifp.ifMtu.toNat then
    some (ifOutput e (withCksum e { p with ip := { ip with ipLen := htons ip.ipLen, ipOff := htons ip.ipOff } } hlen) s)
  else if ip.ipOff &&& ipDF ≠ 0 then some (-eMSGSIZE, s.mFreem m0)
  else
    let len := (ifp.ifMtu.toNat - hlen) / 8 * 8
    if len < 8 then some (-eMSGSIZE, s.mFreem m0)
    else do
      let (error, frags, s) ← outFragments e p hlen (ip.ipLen.toNat + 1) (hlen + len) len s
      let p := if error = 0 then firstFragment e p hlen len else p
      return sendorfree e error (p :: frags) s

/-- `ip_output` -/
def ipOutput (m0 : OutPkt) (opt : Option OutOpt) (ro : Option OutRoute) (flags : BitVec 32) (imo : Option OutMoptions) :
    Option (ℤ × OutState) := do
  let (p, hlen, s) ← ipHeader e m0 opt flags ⟨0, [], []⟩
  match ipRoute e ro flags imo p.ip with
  | .bad error => return (error, s.mFreem m0.ids)
  | .drop => return (0, s.mFreem p.ids)
  | .sendit ifp ip => ipSenditOut e m0.ids ifp { p with ip := ip } hlen s

end

/-! ## What should happen -/

/-- The mbufs that the first `n` allocations have found. -/
def madeIds (e : IpOutEnv) (n : ℕ) : Multiset MbufId := ((List.range n).filter e.alloc).map MbufId.made

/-- The mbufs that `if_output` got. -/
def OutState.sentIds (s : OutState) : Multiset MbufId := (s.sent.flatMap OutPkt.ids : List MbufId)

/-- Every mbuf of the packet, and every one that was made, was handed to `if_output` or freed, once. -/
def OutState.Consumed (s : OutState) (e : IpOutEnv) (ids : List MbufId) : Prop :=
  (s.freed : Multiset MbufId) + s.sentIds = ids + madeIds e s.tries

/-- `ip_hl` and `ip_len` are the lengths of the header and of the packet. -/
def OutPkt.HeaderRight (p : OutPkt) : Prop :=
  4 * p.ip.ipHl.toNat = p.hdr ∧ (htons p.ip.ipLen).toNat = p.len

def OutputRight (e : IpOutEnv) (m0 : OutPkt) (opt : Option OutOpt) (ro : Option OutRoute) (flags : BitVec 32)
    (imo : Option OutMoptions) : Prop :=
  ∃ error s, ipOutput e m0 opt ro flags imo = some (error, s) ∧ s.Consumed e m0.ids ∧ ∀ p ∈ s.sent, p.HeaderRight

/-- What callers hand over: `ip_len` is the length of the packet, and the header is in the first mbuf. If there is no
header yet, there is room for one. -/
structure OutPkt.Fits (m0 : OutPkt) (flags : BitVec 32) : Prop where
  ipLen : m0.ip.ipLen.toNat = m0.len
  first : sizeofIp ≤ m0.m.mLen
  hdr : m0.hdr = if HasHeader flags then 4 * m0.ip.ipHl.toNat else sizeofIp
  hdr_le : sizeofIp ≤ m0.hdr

/-! ### When it does -/

/-- Options are inserted: the packet does not become too long, and if they need an mbuf of their own, there is one. -/
def OutOpt.Inserts (opt : OutOpt) (e : IpOutEnv) (m0 : OutPkt) : Prop :=
  opt.ipoptList.length + m0.ip.ipLen.toNat ≤ iP_MAXPACKET ∧
    (NeedsHeader m0.m opt.ipoptList.length → e.alloc 0 = true)

/-- The packet gets a new first mbuf. -/
def NewHeader (e : IpOutEnv) (m0 : OutPkt) (opt : Option OutOpt) : Prop :=
  ∃ o ∈ opt, o.Inserts e m0 ∧ NeedsHeader m0.m o.ipoptList.length

/-- `ip_hl` counts the options: whole words of them, if there was no header, and else none. -/
def HlOk (e : IpOutEnv) (m0 : OutPkt) (opt : Option OutOpt) (flags : BitVec 32) : Prop :=
  ∀ o ∈ opt, o.Inserts e m0 → if HasHeader flags then o.ipoptList = [] else 4 ∣ o.ipoptList.length

/-- `ip_optcopy` comes to the end of `cnt` bytes from `cp` on: it meets no option of length 0. -/
def WalkEnds (mem : ℕ → Byte) (cp cnt : ℕ) : Prop :=
  if cnt = 0 then True
  else if mem cp = ipoptEOL then True
  else if mem cp = ipoptNOP then WalkEnds mem (cp + 1) (cnt - 1)
  else if _h : mem (cp + ipoptOLEN) = 0 then False
  else
    let optlen := clampLen mem cp cnt
    WalkEnds mem (cp + (if ipoptCopied (mem cp) then 2 * optlen else optlen)) (cnt - optlen)
termination_by cnt
decreasing_by
  · omega
  · have hpos := clampLen_pos (show 0 < cnt by omega) _h
    omega

/-- How many mbufs the loop of `_m_copym` takes. -/
def loopNeeds : (len offset : ℕ) → List OutMbuf → ℕ
  | _, _, [] => 0
  | len, offset, m :: next => if len = 0 then 0 else loopNeeds (len - min len (m.mLen - offset)) 0 next + 1

def copyNeeds (m0 : List OutMbuf) (off len : ℕ) : ℕ := (getptr off m0).elim 0 fun r => loopNeeds len r.2 r.1

/-- How many mbufs `n` fragments take. -/
def fragsNeed (p : OutPkt) (len : ℕ) : (n off : ℕ) → ℕ
  | 0, _ => 0
  | n + 1, off => 1 + copyNeeds p.chain off (min len (p.ip.ipLen.toNat - off)) + fragsNeed p len n (off + len)

/-- The packet can be cut into the first fragment and `n` others. There is memory for all of them, and the interface
takes all but the last one without an error. -/
structure FragsOk (e : IpOutEnv) (p : OutPkt) (hlen len n : ℕ) (s : OutState) : Prop where
  walk : sizeofIp < hlen → WalkEnds p.mem sizeofIp (4 * p.ip.ipHl.toNat - sizeofIp)
  memory : ∀ i < fragsNeed p len n (hlen + len), e.alloc (s.tries + i) = true
  taken : ∀ i < n, e.ifOutput i = 0

/-- Options are inserted where `hlen` needs them; no packet with a new first mbuf is given up; headers that are sent have
whole words; and a packet is cut without an error, or it is one mbuf and there is not even memory for one other. -/
def OutputOk (e : IpOutEnv) (m0 : OutPkt) (opt : Option OutOpt) (ro : Option OutRoute) (flags : BitVec 32)
    (imo : Option OutMoptions) : Prop :=
  (¬ HasHeader flags → ∀ o ∈ opt, o.Inserts e m0) ∧
    ∀ p hlen s, ipHeader e m0 opt flags ⟨0, [], []⟩ = some (p, hlen, s) →
      match ipRoute e ro flags imo p.ip with
      | .bad _ => ¬ NewHeader e m0 opt
      | .drop => True
      | .sendit ifp ip =>
          let len := (ifp.ifMtu.toNat - hlen) / 8 * 8
          if ip.ipLen.toNat ≤ ifp.ifMtu.toNat then HlOk e m0 opt flags
          else if ip.ipOff &&& ipDF ≠ 0 ∨ len < 8 then ¬ NewHeader e m0 opt
          else
            (p.mNext = [] ∧ e.alloc s.tries = false) ∨
              (HlOk e m0 opt flags ∧ FragsOk e { p with ip := ip } hlen len ((ip.ipLen.toNat - hlen - 1) / len) s)

section

variable {e : IpOutEnv} {c next top : List OutMbuf} {m : OutMbuf} {s s' : OutState} {len offset off n : ℕ}

/-! ## Memory -/

theorem madeIds_succ (e : IpOutEnv) (n : ℕ) :
    madeIds e (n + 1) = madeIds e n + if e.alloc n then {.made n} else 0 := by
  rw [madeIds, List.range_succ, List.filter_append, List.map_append, ← Multiset.coe_add]
  congr 1
  by_cases h : e.alloc n = true
  · rw [if_pos h, List.filter_cons_of_pos h]
    rfl
  · rw [if_neg h, List.filter_cons_of_neg h]
    rfl

theorem mGet_some (h : e.alloc s.tries = true) :
    mGet e s = (some ⟨.made s.tries, false, 0, 0⟩, { s with tries := s.tries + 1 }) := by
  rw [mGet, if_pos h]

theorem mGet_none (h : ¬ e.alloc s.tries = true) : mGet e s = (none, { s with tries := s.tries + 1 }) := by
  rw [mGet, if_neg h]

/-- The allocations from `n` on, one and then the others. -/
theorem alloc_succ_iff (t n : ℕ) :
    (∀ i < n + 1, e.alloc (t + i) = true) ↔ e.alloc t = true ∧ ∀ i < n, e.alloc (t + 1 + i) = true := by
  constructor
  · intro h
    refine ⟨h 0 n.succ_pos, fun i hi => ?_⟩
    rw [Nat.add_right_comm]
    exact h (i + 1) (Nat.succ_lt_succ hi)
  · rintro ⟨hzero, h⟩ (_ | i) hi
    · exact hzero
    · have hrest := h i (Nat.lt_of_succ_lt_succ hi)
      rwa [Nat.add_right_comm] at hrest

theorem alloc_add_iff (t n k : ℕ) :
    (∀ i < n + k, e.alloc (t + i) = true) ↔
      (∀ i < n, e.alloc (t + i) = true) ∧ ∀ i < k, e.alloc (t + n + i) = true := by
  constructor
  · intro h
    refine ⟨fun i hi => h i (by omega), fun i hi => ?_⟩
    rw [Nat.add_assoc]
    exact h (n + i) (by omega)
  · rintro ⟨hfirst, hrest⟩ i hi
    rcases lt_or_ge i n with hlt | hge
    · exact hfirst i hlt
    · obtain ⟨j, rfl⟩ := Nat.exists_eq_add_of_le hge
      rw [← Nat.add_assoc]
      exact hrest j (by omega)

/-! ## Copies -/

theorem copyLoop_stop (offset : ℕ) : copyLoop e 0 offset (m :: next) s = ([], false, s) := by
  rw [copyLoop, if_pos rfl]

theorem copyLoop_fail (hlen : len ≠ 0) (h : ¬ e.alloc s.tries = true) :
    copyLoop e len offset (m :: next) s = ([], true, { s with tries := s.tries + 1 }) := by
  rw [copyLoop, if_neg hlen, mGet_none h]

/-- The copy of one mbuf. -/
def OutMbuf.copy (m : OutMbuf) (s : OutState) (len offset : ℕ) : OutMbuf :=
  ⟨.made s.tries, m.mExt, 0, min len (m.mLen - offset)⟩

theorem copyLoop_more (hlen : len ≠ 0) (h : e.alloc s.tries = true) :
    copyLoop e len offset (m :: next) s =
      (m.copy s len offset :: (copyLoop e (len - min len (m.mLen - offset)) 0 next { s with tries := s.tries + 1 }).1,
        (copyLoop e (len - min len (m.mLen - offset)) 0 next { s with tries := s.tries + 1 }).2) := by
  rw [copyLoop, if_neg hlen, mGet_some h]
  rfl

/-- The loop frees nothing, and holds what it has made. -/
theorem copyLoop_made (e : IpOutEnv) (len offset : ℕ) (c : List OutMbuf) (s : OutState) :
    ∃ t, (copyLoop e len offset c s).2.2 = { s with tries := t } ∧
      madeIds e t = madeIds e s.tries + ((copyLoop e len offset c s).1.map OutMbuf.id : List MbufId) := by
  induction c generalizing len offset s with
  | nil => exact ⟨s.tries, rfl, (add_zero _).symm⟩
  | cons m next ih =>
      rcases Nat.eq_zero_or_pos len with rfl | hlen
      · rw [copyLoop_stop]
        exact ⟨s.tries, rfl, (add_zero _).symm⟩
      by_cases halloc : e.alloc s.tries = true
      · rw [copyLoop_more hlen.ne' halloc]
        obtain ⟨t, hs, hmade⟩ := ih (len - min len (m.mLen - offset)) 0 { s with tries := s.tries + 1 }
        refine ⟨t, hs, ?_⟩
        rw [hmade, madeIds_succ, if_pos halloc, List.map_cons, add_assoc]
        rfl
      · rw [copyLoop_fail hlen.ne' halloc]
        refine ⟨s.tries + 1, rfl, ?_⟩
        rw [madeIds_succ, if_neg halloc]
        rfl

theorem copyLoop_iff (e : IpOutEnv) (len offset : ℕ) (c : List OutMbuf) (s : OutState) :
    (copyLoop e len offset c s).2.1 = false ↔ ∀ i < loopNeeds len offset c, e.alloc (s.tries + i) = true := by
  induction c generalizing len offset s with
  | nil => exact iff_of_true rfl fun i hi => absurd hi i.not_lt_zero
  | cons m next ih =>
      rw [loopNeeds]
      rcases Nat.eq_zero_or_pos len with rfl | hlen
      · rw [copyLoop_stop, if_pos rfl]
        exact iff_of_true rfl fun i hi => absurd hi i.not_lt_zero
      rw [if_neg hlen.ne', alloc_succ_iff]
      by_cases halloc : e.alloc s.tries = true
      · rw [copyLoop_more hlen.ne' halloc]
        exact (ih _ _ _).trans (iff_and_self.mpr fun _ => halloc)
      · rw [copyLoop_fail hlen.ne' halloc]
        exact iff_of_false Bool.noConfusion fun h => halloc h.1

/-- A copy that does not fail. -/
theorem copyLoop_done (h : (copyLoop e len offset (m :: next) s).2.1 = false)
    (hlen : len ≤ m.mLen - offset + (next.map OutMbuf.mLen).sum) :
    ((copyLoop e len offset (m :: next) s).1.map OutMbuf.mLen).sum = len ∧
      (copyLoop e len offset (m :: next) s).2.2.tries = s.tries + loopNeeds len offset (m :: next) := by
  induction next generalizing m len offset s with
  | nil =>
      rw [loopNeeds]
      rcases Nat.eq_zero_or_pos len with rfl | hpos
      · rw [copyLoop_stop, if_pos rfl]
        exact ⟨rfl, rfl⟩
      by_cases halloc : e.alloc s.tries = true
      · rw [copyLoop_more hpos.ne' halloc, if_neg hpos.ne']
        rw [List.map_nil, List.sum_nil, Nat.add_zero] at hlen
        refine ⟨?_, rfl⟩
        rw [List.map_cons, List.sum_cons, OutMbuf.copy, Nat.min_eq_left hlen]
        rfl
      · rw [copyLoop_fail hpos.ne' halloc] at h
        exact Bool.noConfusion h
  | cons m' next ih =>
      rw [loopNeeds]
      rcases Nat.eq_zero_or_pos len with rfl | hpos
      · rw [copyLoop_stop, if_pos rfl]
        exact ⟨rfl, rfl⟩
      by_cases halloc : e.alloc s.tries = true
      · rw [copyLoop_more hpos.ne' halloc] at h ⊢
        rw [if_neg hpos.ne']
        rw [List.map_cons, List.sum_cons] at hlen
        obtain ⟨hsum, htries⟩ := ih h (by omega)
        constructor
        · rw [List.map_cons, List.sum_cons, hsum, OutMbuf.copy]
          dsimp only
          omega
        · rw [htries]
          dsimp only
          omega
      · rw [copyLoop_fail hpos.ne' halloc] at h
        exact Bool.noConfusion h

theorem getptr_spec (hoff : off < (c.map OutMbuf.mLen).sum) :
    ∃ front m next o, getptr off c = some (m :: next, o) ∧ c = front ++ m :: next ∧
      m.mLen - o + (next.map OutMbuf.mLen).sum = (c.map OutMbuf.mLen).sum - off := by
  induction c generalizing off with
  | nil => exact absurd hoff (Nat.not_lt_zero _)
  | cons m next ih =>
      rw [List.map_cons, List.sum_cons] at hoff ⊢
      rw [getptr]
      by_cases hlt : off < m.mLen
      · rw [if_pos hlt]
        exact ⟨[], m, next, off, rfl, rfl, by omega⟩
      · have hrest : off - m.mLen < (next.map OutMbuf.mLen).sum := by omega
        have hnext : next ≠ [] := by
          rintro rfl
          exact absurd hrest (Nat.not_lt_zero _)
        obtain ⟨front, m', next', o, hptr, hsplit, hlen⟩ := ih hrest
        rw [if_neg hlt, if_neg hnext, hptr]
        exact ⟨m :: front, m', next', o, rfl, by rw [hsplit, List.cons_append], by omega⟩

/-- What `m_copy` returns: the bytes asked for, or nothing, and then the copies are freed again. -/
theorem mCopy_spec (hlen : 0 < len) (hoff : off + len ≤ (c.map OutMbuf.mLen).sum) (h : mCopy e c off len s = some (top, s')) :
    s'.sent = s.sent ∧
      (s'.freed : Multiset MbufId) + (top.map OutMbuf.id : List MbufId) + madeIds e s.tries =
        s.freed + madeIds e s'.tries ∧
      (top ≠ [] → s'.freed = s.freed ∧ (top.map OutMbuf.mLen).sum = len ∧ s'.tries = s.tries + copyNeeds c off len ∧
        ∀ i < copyNeeds c off len, e.alloc (s.tries + i) = true) := by
  obtain ⟨front, m, next, o, hptr, hsplit, havail⟩ := getptr_spec (show off < (c.map OutMbuf.mLen).sum by omega)
  obtain ⟨t, hs, hmade⟩ := copyLoop_made e len o (m :: next) s
  have hiff := copyLoop_iff e len o (m :: next) s
  have hdone (h : (copyLoop e len o (m :: next) s).2.1 = false) := copyLoop_done h (by omega)
  have hneeds : copyNeeds c off len = loopNeeds len o (m :: next) := by rw [copyNeeds, hptr]; rfl
  rw [mCopy, hptr] at h
  dsimp only at h
  rw [hneeds]
  rcases hloop : copyLoop e len o (m :: next) s with ⟨copies, failed, r⟩
  rw [hloop] at h hs hmade hiff hdone
  obtain rfl : r = { s with tries := t } := hs
  cases failed with
  | false =>
      obtain ⟨rfl, rfl⟩ := Prod.mk.inj (Option.some.inj h)
      obtain ⟨hsum, htries⟩ := hdone rfl
      refine ⟨rfl, ?_, fun _ => ⟨rfl, hsum, htries, hiff.mp rfl⟩⟩
      change (s.freed : Multiset MbufId) + _ + _ = s.freed + madeIds e t
      rw [hmade, add_assoc, add_comm (madeIds e s.tries)]
  | true =>
      cases copies with
      | nil => cases h
      | cons n copies =>
          obtain ⟨rfl, rfl⟩ := Prod.mk.inj (Option.some.inj h)
          refine ⟨rfl, ?_, fun hne => absurd rfl hne⟩
          change ((s.freed ++ (n :: copies).map OutMbuf.id : List MbufId) : Multiset MbufId) + 0 + _ =
            s.freed + madeIds e t
          rw [hmade, add_zero, ← Multiset.coe_add, add_assoc, add_comm (madeIds e s.tries)]

theorem mCopy_of_alloc (hlen : 0 < len) (hoff : off + len ≤ (c.map OutMbuf.mLen).sum)
    (h : ∀ i < copyNeeds c off len, e.alloc (s.tries + i) = true) :
    ∃ top s', mCopy e c off len s = some (top, s') ∧ top ≠ [] := by
  obtain ⟨front, m, next, o, hptr, hsplit, havail⟩ := getptr_spec (show off < (c.map OutMbuf.mLen).sum by omega)
  have hneeds : copyNeeds c off len = loopNeeds len o (m :: next) := by rw [copyNeeds, hptr]; rfl
  rw [hneeds] at h
  have hfailed := (copyLoop_iff e len o (m :: next) s).mpr h
  obtain ⟨hsum, -⟩ := copyLoop_done hfailed (by omega)
  rw [mCopy, hptr]
  dsimp only
  rcases hloop : copyLoop e len o (m :: next) s with ⟨copies, failed, r⟩
  rw [hloop] at hfailed hsum
  obtain rfl : failed = false := hfailed
  refine ⟨copies, r, rfl, ?_⟩
  rintro rfl
  exact hlen.ne hsum

/-- For a packet of one mbuf, there is nothing to free if there is no memory. -/
theorem mCopy_single (hlen : 0 < len) (hoff : off + len ≤ m.mLen) : mCopy e [m] off len s ≠ some ([], s') := by
  intro h
  have hlt : off < m.mLen := by omega
  rw [mCopy, getptr, if_pos hlt] at h
  dsimp only at h
  by_cases halloc : e.alloc s.tries = true
  · rw [copyLoop_more hlen.ne' halloc] at h
    cases h
  · rw [copyLoop_fail hlen.ne' halloc] at h
    cases h

/-! ## The header of a fragment -/

/-- Where the walk over options ends, and how far `dp` gets. -/
theorem optcopyLoop_dp {ip : ℕ → Byte} {x r : Optcopy} {fuel : ℕ} (h : optcopyLoop ip fuel x = some r) :
    x.dp ≤ r.dp ∧ r.dp ≤ x.dp + x.cnt := by
  induction fuel generalizing x with
  | zero => cases h
  | succ fuel ih =>
      by_cases hcnt : x.cnt = 0
      · rw [optcopyLoop_done hcnt] at h
        obtain rfl := Option.some.inj h
        exact ⟨le_rfl, Nat.le_add_right _ _⟩
      by_cases heol : ip x.cp = ipoptEOL
      · rw [optcopyLoop_eol hcnt heol] at h
        obtain rfl := Option.some.inj h
        exact ⟨le_rfl, Nat.le_add_right _ _⟩
      by_cases hnop : ip x.cp = ipoptNOP
      · rw [optcopyLoop_nop hcnt hnop] at h
        have hrest : x.dp + 1 ≤ r.dp ∧ r.dp ≤ x.dp + 1 + (x.cnt - 1) := ih h
        omega
      · rw [optcopyLoop_option hcnt heol hnop] at h
        have hdp : (x.afterOption ip).dp = x.dp := by
          rw [Optcopy.afterOption]
          dsimp only
          split_ifs <;> rfl
        have hleft : (x.afterOption ip).cnt = x.cnt - clampLen ip x.cp x.cnt := by
          rw [Optcopy.afterOption]
          dsimp only
          split_ifs <;> rfl
        have hrest := ih h
        rw [hdp, hleft] at hrest
        omega

theorem optcopyLoop_isSome_iff {ip : ℕ → Byte} {x : Optcopy} {fuel : ℕ} (hfuel : x.cnt < fuel) :
    (optcopyLoop ip fuel x).isSome ↔ WalkEnds ip x.cp x.cnt := by
  induction fuel generalizing x with
  | zero => exact absurd hfuel (Nat.not_lt_zero _)
  | succ fuel ih =>
      rw [WalkEnds]
      by_cases hcnt : x.cnt = 0
      · rw [optcopyLoop_done hcnt, if_pos hcnt]
        exact iff_of_true rfl trivial
      rw [if_neg hcnt]
      by_cases heol : ip x.cp = ipoptEOL
      · rw [optcopyLoop_eol hcnt heol, if_pos heol]
        exact iff_of_true rfl trivial
      rw [if_neg heol]
      by_cases hnop : ip x.cp = ipoptNOP
      · rw [optcopyLoop_nop hcnt hnop, if_pos hnop]
        exact ih (show x.cnt - 1 < fuel by omega)
      rw [if_neg hnop]
      by_cases hzero : ip (x.cp + ipoptOLEN) = 0
      · rw [optcopyLoop_stuck hcnt heol hnop hzero, dif_pos hzero]
        exact iff_of_false Bool.false_ne_true id
      rw [optcopyLoop_option hcnt heol hnop, dif_neg hzero]
      have hpos := clampLen_pos (show 0 < x.cnt by omega) hzero
      have hleft : (x.afterOption ip).cnt = x.cnt - clampLen ip x.cp x.cnt := by
        rw [Optcopy.afterOption]
        dsimp only
        split_ifs <;> rfl
      have hcp : (x.afterOption ip).cp = x.cp +
          (if ipoptCopied (ip x.cp) then 2 * clampLen ip x.cp x.cnt else clampLen ip x.cp x.cnt) := by
        rw [Optcopy.afterOption]
        dsimp only
        split_ifs
        · dsimp only [Optcopy.memcpy]
          omega
        · rfl
      have hrest := ih (x := x.afterOption ip) (by omega)
      rwa [hleft, hcp] at hrest

theorem low_append : ∀ v hl : BitVec 4, (v ++ hl : BitVec 8).extractLsb' 0 4 = hl := by decide +kernel

@[simp] theorem ipHl_setHl (ip : Ip) (hl : BitVec 4) : (ip.setHl hl).ipHl = hl := low_append _ hl

/-- `hlen >> 2` as `ip_hl` holds it. -/
theorem toNat_hl (n : ℕ) : 4 * (BitVec.ofNat 4 (n / 4)).toNat = n / 4 % 16 * 4 := by
  rw [BitVec.toNat_ofNat, Nat.mul_comm]

variable {p : OutPkt} {hlen mhlen fuel t : ℕ} {mhip : Ip} {mem : ℕ → Byte}

theorem mhipOf_spec (hhl : hlen ≤ sizeofIp → 4 * p.ip.ipHl.toNat = sizeofIp) (h : mhipOf p hlen = some (mhip, mem, mhlen)) :
    4 * mhip.ipHl.toNat = mhlen ∧ mhlen ≤ max sizeofIp (4 * p.ip.ipHl.toNat) := by
  have hip : sizeofIp = 20 := rfl
  rw [mhipOf] at h
  by_cases hlt : sizeofIp < hlen
  · rw [if_pos hlt, ipOptcopy, Option.map_map] at h
    obtain ⟨r, hr, hres⟩ := Option.map_eq_some_iff.mp h
    obtain ⟨hle, hge⟩ := optcopyLoop_dp hr
    have hdp : (optcopyPad 3 r.mem r.dp).2 = r.dp + (4 - (r.dp - sizeofIp) % 4) % 4 := (optcopyPad_eq hle).1
    dsimp only [Function.comp] at hres hle hge
    simp only [Prod.mk.injEq] at hres
    obtain ⟨rfl, -, rfl⟩ := hres
    rw [ipHl_setHl, toNat_hl, hdp]
    have hmax := p.ip.ipHl.isLt
    omega
  · rw [if_neg hlt] at h
    obtain ⟨rfl, -, rfl⟩ := by simpa using h
    exact ⟨hhl (by omega), le_max_left _ _⟩

theorem mhipOf_isSome_iff (p : OutPkt) (hlen : ℕ) :
    (mhipOf p hlen).isSome ↔ (sizeofIp < hlen → WalkEnds p.mem sizeofIp (4 * p.ip.ipHl.toNat - sizeofIp)) := by
  rw [mhipOf]
  by_cases hlt : sizeofIp < hlen
  · rw [if_pos hlt, ipOptcopy, Option.isSome_map, Option.isSome_map, forall_prop_of_true hlt]
    refine optcopyLoop_isSome_iff ?_
    dsimp only
    omega
  · rw [if_neg hlt]
    exact iff_of_true rfl fun h => absurd h hlt

/-! ## The fragments -/

theorem outFragments_end (h : p.ip.ipLen.toNat ≤ off) : outFragments e p hlen (fuel + 1) off len s = some (0, [], s) := by
  rw [outFragments, if_neg (Nat.not_lt.mpr h)]

theorem outFragments_noHeader (hoff : off < p.ip.ipLen.toNat) (h : ¬ e.alloc s.tries = true) :
    outFragments e p hlen (fuel + 1) off len s = some (-eNOBUFS, [], { s with tries := s.tries + 1 }) := by
  rw [outFragments, if_pos hoff, mGet_none h]

/-- One turn of the loop, with memory for the header. -/
theorem outFragments_turn (hoff : off < p.ip.ipLen.toNat) (h : e.alloc s.tries = true) :
    let left := if decide (p.ip.ipLen.toNat ≤ off + len) then p.ip.ipLen.toNat - off else len
    outFragments e p hlen (fuel + 1) off len s =
      (mhipOf p hlen).bind fun (mhip, mem, mhlen) =>
        (mCopy e p.chain off left { s with tries := s.tries + 1 }).bind fun (mNext, s') =>
          let m : OutMbuf := ⟨.made s.tries, false, 0 + maxLinkhdr, mhlen⟩
          if mNext = [] then some (eNOBUFS, [], s'.mFree m)
          else
            let mhip := { mhip with
              ipLen := htons (BitVec.ofNat 16 (left + mhlen))
              ipOff := htons (mhipOff p.ip hlen off (p.ip.ipLen.toNat ≤ off + len)) }
            (outFragments e p hlen fuel (off + left) left s').map fun (error, rest, s') =>
              (error, withCksum e ⟨m, mNext, mhlen + left, mhip, mem, mhlen⟩ mhlen :: rest, s') := by
  rw [outFragments, if_pos hoff, mGet_some h]
  dsimp only
  rw [Option.bind_eq_bind]
  congr 1
  funext ⟨mhip, mem, mhlen⟩
  rw [Option.bind_eq_bind]
  congr 1
  funext ⟨mNext, s'⟩
  dsimp only
  by_cases hnil : mNext = []
  · rw [if_pos hnil, if_pos hnil]
    rfl
  · rw [if_neg hnil, if_neg hnil, Option.map_eq_bind]
    rfl

/-- `n` fragments of at most `len` bytes are left. -/
structure FragsLeft (ipLen off len n : ℕ) : Prop where
  le : ipLen ≤ off + n * len
  lt : n ≠ 0 → off + (n - 1) * len < ipLen

theorem left_eq (ipLen off len : ℕ) :
    (if decide (ipLen ≤ off + len) then ipLen - off else len) = min len (ipLen - off) := by
  by_cases h : ipLen ≤ off + len
  · rw [if_pos (decide_eq_true h)]
    omega
  · rw [if_neg fun hd => h (of_decide_eq_true hd)]
    omega

/-- The last fragment takes what is left, and the others all of `len`. -/
theorem FragsLeft.min_eq {ipLen : ℕ} (h : FragsLeft ipLen off len (n + 1)) (hn : n ≠ 0) :
    min len (ipLen - off) = len := by
  have hlt := h.lt n.succ_ne_zero
  obtain ⟨k, rfl⟩ := Nat.exists_eq_succ_of_ne_zero hn
  rw [Nat.succ_sub_one, Nat.succ_mul] at hlt
  have hmul := Nat.zero_le (k * len)
  omega

theorem FragsLeft.off_lt {ipLen : ℕ} (h : FragsLeft ipLen off len (n + 1)) : off < ipLen :=
  Nat.lt_of_le_of_lt (Nat.le_add_right _ _) (h.lt n.succ_ne_zero)

theorem FragsLeft.rest {ipLen : ℕ} (h : FragsLeft ipLen off len (n + 1)) :
    FragsLeft ipLen (off + min len (ipLen - off)) (min len (ipLen - off)) n := by
  have hlt := h.off_lt
  have hle := h.le
  rcases Nat.eq_zero_or_pos n with rfl | hn
  · exact ⟨by omega, fun hne => absurd rfl hne⟩
  · have hsucc := h.lt n.succ_ne_zero
    rw [h.min_eq hn.ne']
    obtain ⟨k, rfl⟩ := Nat.exists_eq_succ_of_ne_zero hn.ne'
    rw [Nat.succ_sub_one, Nat.succ_mul] at hsucc
    rw [Nat.succ_mul, Nat.succ_mul] at hle
    refine ⟨?_, fun _ => ?_⟩
    · rw [Nat.succ_mul]
      omega
    · rw [Nat.succ_sub_one]
      omega

theorem FragsLeft.needs (h : FragsLeft p.ip.ipLen.toNat off len (n + 1)) :
    fragsNeed p len n (off + len) =
      fragsNeed p (min len (p.ip.ipLen.toNat - off)) n (off + min len (p.ip.ipLen.toNat - off)) := by
  rcases Nat.eq_zero_or_pos n with rfl | hn
  · rfl
  · rw [h.min_eq hn.ne']

theorem FragsLeft.first {ipLen : ℕ} (hpos : 0 < len) (h : hlen + len < ipLen) :
    FragsLeft ipLen (hlen + len) len ((ipLen - hlen - 1) / len) := by
  have hdiv := Nat.div_add_mod (ipLen - hlen - 1) len
  have hmod := Nat.mod_lt (ipLen - hlen - 1) hpos
  have hsome : 0 < (ipLen - hlen - 1) / len := Nat.div_pos (by omega) hpos
  obtain ⟨k, hk⟩ := Nat.exists_eq_succ_of_ne_zero hsome.ne'
  rw [hk, Nat.mul_succ, Nat.mul_comm] at hdiv
  rw [hk]
  refine ⟨?_, fun _ => ?_⟩
  · rw [Nat.succ_mul]
    omega
  · rw [Nat.succ_sub_one]
    omega

/-- The loop, once all allocations succeed and `ip_optcopy` returns. -/
theorem outFragments_of_alloc (hpos : 0 < len) (hsize : p.ip.ipLen.toNat = p.len) (hfuel : n < fuel)
    (hleft : FragsLeft p.ip.ipLen.toNat off len n) (hmhip : (mhipOf p hlen).isSome)
    (h : ∀ i < fragsNeed p len n off, e.alloc (s.tries + i) = true) :
    ∃ frags s', outFragments e p hlen fuel off len s = some (0, frags, s') := by
  induction n generalizing fuel off len s with
  | zero =>
      obtain ⟨fuel, rfl⟩ := Nat.exists_eq_succ_of_ne_zero hfuel.ne'
      have hle := hleft.le
      rw [Nat.zero_mul, Nat.add_zero] at hle
      exact ⟨[], s, outFragments_end hle⟩
  | succ n ih =>
      obtain ⟨fuel, rfl⟩ := Nat.exists_eq_succ_of_ne_zero (Nat.ne_zero_of_lt hfuel)
      have hlt := hleft.off_lt
      obtain ⟨⟨mhip, mem, mhlen⟩, hsome⟩ := Option.isSome_iff_exists.mp hmhip
      rw [fragsNeed, hleft.needs, Nat.add_assoc, Nat.add_comm 1, alloc_succ_iff, alloc_add_iff] at h
      obtain ⟨hzero, hcopy, hrest⟩ := h
      have hsum : off + min len (p.ip.ipLen.toNat - off) ≤ (p.chain.map OutMbuf.mLen).sum := by
        rw [← OutPkt.len, ← hsize]
        omega
      have hfuel' : n < fuel := by omega
      obtain ⟨top, s', htop, hne⟩ :=
        mCopy_of_alloc (s := { s with tries := s.tries + 1 }) (by omega) hsum hcopy
      obtain ⟨-, -, hdone⟩ := mCopy_spec (by omega) hsum htop
      obtain ⟨-, -, htries, -⟩ := hdone hne
      obtain ⟨frags, t, hloop⟩ := ih (s := s') (by omega) hfuel' hleft.rest (by rwa [htries])
      rw [outFragments_turn hlt hzero, left_eq, hsome, Option.bind_some]
      dsimp only
      rw [htop, Option.bind_some]
      dsimp only
      rw [if_neg hne, hloop]
      exact ⟨_, t, rfl⟩

/-- The fragment that the loop makes. -/
theorem headerRight_fragment {left : ℕ} {mNext : List OutMbuf} {ipOff : BitVec 16} {id : MbufId}
    (hhl : 4 * mhip.ipHl.toNat = mhlen) (hsum : (mNext.map OutMbuf.mLen).sum = left) (hlt : left + mhlen < 65536) :
    (withCksum e ⟨⟨id, false, 0 + maxLinkhdr, mhlen⟩, mNext, mhlen + left,
      { mhip with ipLen := htons (BitVec.ofNat 16 (left + mhlen)), ipOff := ipOff }, mem, mhlen⟩ mhlen).HeaderRight := by
  refine ⟨hhl, ?_⟩
  change (htons (htons (BitVec.ofNat 16 (left + mhlen)))).toNat = mhlen + (mNext.map OutMbuf.mLen).sum
  rw [htons, htons, swap16_swap16, BitVec.toNat_ofNat, Nat.mod_eq_of_lt hlt, hsum, Nat.add_comm]

/-- With memory for a header, the loop fails with something on the list, if it does, or with a fault. -/
theorem outFragments_single {error : ℤ} {frags : List OutPkt} (hsize : p.ip.ipLen.toNat = p.len) (hsingle : p.mNext = [])
    (hpos : 0 < len) (hoff : off < p.ip.ipLen.toNat) (halloc : e.alloc s.tries = true)
    (h : outFragments e p hlen (fuel + 1) off len s = some (error, frags, s')) : frags ≠ [] := by
  have hchain : p.chain = [p.m] := by rw [OutPkt.chain, hsingle]
  rw [OutPkt.len, hchain, List.map_singleton, List.sum_singleton] at hsize
  rw [outFragments_turn hoff halloc, left_eq, hchain] at h
  obtain ⟨⟨mhip, mem, mhlen⟩, -, h⟩ := Option.bind_eq_some_iff.mp h
  obtain ⟨⟨mNext, r⟩, hcopy, h⟩ := Option.bind_eq_some_iff.mp h
  have hnil : mNext ≠ [] := by
    rintro rfl
    exact mCopy_single (by omega) (by omega) hcopy
  dsimp only at h
  rw [if_neg hnil] at h
  obtain ⟨q, -, heq⟩ := Option.map_eq_some_iff.mp h
  cases heq
  exact List.cons_ne_nil _ _

/-- What the loop leaves behind, whatever happens. -/
theorem outFragments_spec {error : ℤ} {frags : List OutPkt} (hhl : hlen ≤ sizeofIp → 4 * p.ip.ipHl.toNat = sizeofIp)
    (hmax : max sizeofIp (4 * p.ip.ipHl.toNat) ≤ hlen) (hsize : p.ip.ipLen.toNat = p.len) (hpos : 0 < len)
    (hoff : hlen ≤ off) (hleft : FragsLeft p.ip.ipLen.toNat off len n)
    (h : outFragments e p hlen fuel off len s = some (error, frags, s')) :
    s'.sent = s.sent ∧
      (s'.freed : Multiset MbufId) + (frags.flatMap OutPkt.ids : List MbufId) + madeIds e s.tries =
        s.freed + madeIds e s'.tries ∧
      (∀ x ∈ frags, x.HeaderRight ∧ x.mNext ≠ []) ∧
      (error = 0 → frags.length = n ∧ (n ≠ 0 → (mhipOf p hlen).isSome) ∧
        ∀ i < fragsNeed p len n off, e.alloc (s.tries + i) = true) := by
  have hnobufs : eNOBUFS ≠ 0 := by decide
  induction n generalizing fuel off len s error frags with
  | zero =>
      cases fuel with
      | zero => cases h
      | succ fuel =>
          have hle := hleft.le
          rw [Nat.zero_mul, Nat.add_zero] at hle
          rw [outFragments_end hle] at h
          obtain ⟨rfl, rfl, rfl⟩ := by simpa using h
          refine ⟨rfl, ?_, List.forall_mem_nil _, fun _ => ⟨rfl, fun hne => absurd rfl hne, ?_⟩⟩
          · rw [List.flatMap_nil, Multiset.coe_nil, add_zero]
          exact fun i hi => absurd hi i.not_lt_zero
  | succ n ih =>
      cases fuel with
      | zero => cases h
      | succ fuel =>
          have hlt := hleft.off_lt
          by_cases halloc : e.alloc s.tries = true
          · rw [outFragments_turn hlt halloc, left_eq] at h
            obtain ⟨⟨mhip, mem, mhlen⟩, hsome, h⟩ := Option.bind_eq_some_iff.mp h
            obtain ⟨⟨mNext, r⟩, hcopy, h⟩ := Option.bind_eq_some_iff.mp h
            have hsum : off + min len (p.ip.ipLen.toNat - off) ≤ (p.chain.map OutMbuf.mLen).sum := by
              rw [← OutPkt.len, ← hsize]
              omega
            obtain ⟨hsent, hids, hdone⟩ := mCopy_spec (by omega) hsum hcopy
            obtain ⟨hmhl, hmle⟩ := mhipOf_spec hhl hsome
            dsimp only at h
            by_cases hnil : mNext = []
            · rw [if_pos hnil] at h
              obtain ⟨rfl, rfl, rfl⟩ := by simpa using h
              refine ⟨hsent, ?_, List.forall_mem_nil _, fun h => absurd h hnobufs⟩
              rw [hnil] at hids
              rw [OutState.mFree, OutState.mFreem]
              dsimp only at hids ⊢
              rw [madeIds_succ, if_pos halloc, List.map_nil, Multiset.coe_nil, add_zero] at hids
              rw [← Multiset.coe_add, List.flatMap_nil, Multiset.coe_nil, add_zero, ← hids]
              exact (add_assoc _ _ _).trans (congrArg _ (add_comm _ _))
            · rw [if_neg hnil] at h
              obtain ⟨⟨err, rest, t⟩, hrest, heq⟩ := Option.map_eq_some_iff.mp h
              cases heq
              obtain ⟨hfreed, hlens, htries, hmem⟩ := hdone hnil
              obtain ⟨hsent', hids', hall, hzero⟩ := ih (by omega) (by omega) hleft.rest hrest
              refine ⟨hsent'.trans hsent, ?_, ?_, fun h => ?_⟩
              · have hmade : {MbufId.made s.tries} + (mNext.map OutMbuf.id : List MbufId) + madeIds e s.tries =
                    madeIds e r.tries := by
                  rw [hfreed, madeIds_succ, if_pos halloc, add_assoc, add_right_inj] at hids
                  rw [← hids]
                  abel
                rw [← hmade, hfreed] at hids'
                rw [List.flatMap_cons, ← Multiset.coe_add, ← hids']
                change (t.freed : Multiset MbufId) + (({MbufId.made s.tries} + (mNext.map OutMbuf.id : List MbufId)) + _) +
                  _ = _
                abel
              · exact List.forall_mem_cons.mpr ⟨⟨headerRight_fragment hmhl hlens (by omega), hnil⟩, hall⟩
              · obtain ⟨hcount, -, hallocs⟩ := hzero h
                refine ⟨by rw [List.length_cons, hcount], fun _ => by rw [hsome]; rfl, ?_⟩
                rw [fragsNeed, hleft.needs, Nat.add_assoc, Nat.add_comm 1, alloc_succ_iff, alloc_add_iff]
                rw [htries] at hallocs
                exact ⟨halloc, hmem, hallocs⟩
          · rw [outFragments_noHeader hlt halloc] at h
            obtain ⟨rfl, rfl, rfl⟩ := by simpa using h
            refine ⟨rfl, ?_, List.forall_mem_nil _, fun h => absurd (neg_eq_zero.mp h) hnobufs⟩
            change (s.freed : Multiset MbufId) + 0 + _ = s.freed + madeIds e (s.tries + 1)
            rw [madeIds_succ, if_neg halloc, add_zero, add_zero]

/-! ## The first fragment -/

theorem ids_count (n : ℕ) (c : List OutMbuf) : (mAdjTail.count n c).map OutMbuf.id = c.map OutMbuf.id := by
  induction c generalizing n with
  | nil => rfl
  | cons m next ih =>
      rw [mAdjTail.count]
      split_ifs
      · rw [List.map_cons, List.map_cons, List.map_map]
        rfl
      · rw [List.map_cons, List.map_cons, ih]

theorem len_count (hn : n ≤ (c.map OutMbuf.mLen).sum) : ((mAdjTail.count n c).map OutMbuf.mLen).sum = n := by
  induction c generalizing n with
  | nil => exact (Nat.le_zero.mp hn).symm
  | cons m next ih =>
      rw [List.map_cons, List.sum_cons] at hn
      rw [mAdjTail.count]
      split_ifs with hle
      · have hzero : (next.map fun _ => 0).sum = 0 := by
          rw [List.map_const', List.sum_replicate, smul_zero]
        rw [List.map_cons, List.sum_cons, List.map_map]
        change n + (next.map fun _ => 0).sum = n
        rw [hzero, Nat.add_zero]
      · rw [List.map_cons, List.sum_cons, ih (by omega)]
        omega

/-- `m_adj` keeps all mbufs, and the first bytes. -/
theorem mAdjTail_spec (hc : c ≠ []) (hle : len ≤ (c.map OutMbuf.mLen).sum) :
    (mAdjTail c len).map OutMbuf.id = c.map OutMbuf.id ∧
      ((mAdjTail c len).map OutMbuf.mLen).sum = (c.map OutMbuf.mLen).sum - len := by
  obtain ⟨front, last, rfl⟩ := (List.eq_nil_or_concat' c).resolve_left hc
  rw [mAdjTail, List.getLast?_concat]
  dsimp only
  split_ifs with hlast
  · rw [List.dropLast_concat, List.map_append, List.map_append, List.map_append, List.map_append, List.sum_append,
      List.sum_append]
    refine ⟨rfl, ?_⟩
    simp only [List.map_cons, List.map_nil, List.sum_cons, List.sum_nil]
    omega
  · exact ⟨ids_count _ _, len_count (Nat.sub_le _ _)⟩

theorem firstFragment_spec {firstlen : ℕ} (e : IpOutEnv) (hsize : p.ip.ipLen.toNat = p.len)
    (hle : hlen + firstlen ≤ p.ip.ipLen.toNat) :
    (firstFragment e p hlen firstlen).ids = p.ids ∧
      ((firstFragment e p hlen firstlen).HeaderRight ↔ 4 * p.ip.ipHl.toNat = p.hdr) := by
  have hlt := p.ip.ipLen.isLt
  have hne : p.chain ≠ [] := List.cons_ne_nil _ _
  have hcut : p.ip.ipLen.toNat - (hlen + firstlen) ≤ (p.chain.map OutMbuf.mLen).sum := (Nat.sub_le _ _).trans hsize.le
  obtain ⟨hids, hlens⟩ := mAdjTail_spec hne hcut
  rw [firstFragment]
  rcases hadj : mAdjTail p.chain (p.ip.ipLen.toNat - (hlen + firstlen)) with _ | ⟨m, mNext⟩
  · rw [hadj] at hids
    exact absurd hids (List.cons_ne_nil _ _).symm
  · rw [hadj] at hids hlens
    refine ⟨hids, and_iff_left ?_⟩
    change (htons (htons (BitVec.ofNat 16 (hlen + firstlen)))).toNat = ((m :: mNext).map OutMbuf.mLen).sum
    rw [htons, htons, swap16_swap16, BitVec.toNat_ofNat, hlens, ← OutPkt.len, ← hsize]
    omega

/-! ## Sending -/

/-- Once there is an error, the loop at `sendorfree` frees the first mbuf of each packet. -/
theorem sendorfree_error {error : ℤ} (h : error ≠ 0) (l : List OutPkt) (s : OutState) :
    sendorfree e error l s = (error, { s with freed := s.freed ++ l.map fun p => p.m.id }) := by
  induction l generalizing s with
  | nil => rw [sendorfree, List.map_nil, List.append_nil]
  | cons p rest ih =>
      rw [sendorfree, if_neg h, ih, OutState.mFree, OutState.mFreem]
      dsimp only
      rw [List.append_assoc]
      rfl

/-- Without one, it sends packets until the interface returns an error. -/
theorem sendorfree_spec (e : IpOutEnv) (l : List OutPkt) (s : OutState) :
    ∃ a b, l = a ++ b ∧
      (sendorfree e 0 l s).2 =
        { s with sent := s.sent ++ a, freed := s.freed ++ b.map fun p => p.m.id } ∧
      (l ≠ [] → a ≠ []) ∧ (b = [] ↔ ∀ i, i + 1 < l.length → e.ifOutput (s.sent.length + i) = 0) := by
  induction l generalizing s with
  | nil =>
      refine ⟨[], [], rfl, ?_, id, iff_of_true rfl fun i hi => absurd hi (Nat.not_lt_zero _)⟩
      rw [sendorfree, List.append_nil, List.map_nil, List.append_nil]
  | cons p rest ih =>
      rw [sendorfree, if_pos rfl, ifOutput]
      dsimp only
      by_cases herr : e.ifOutput s.sent.length = 0
      · obtain ⟨a, b, rfl, hs, -, hiff⟩ := ih { s with sent := s.sent ++ [p] }
        refine ⟨p :: a, b, rfl, ?_, fun _ => List.cons_ne_nil _ _, hiff.trans ?_⟩
        · rw [herr, hs]
          dsimp only
          rw [List.append_assoc]
          rfl
        · dsimp only
          have happ : (s.sent ++ [p]).length = s.sent.length + 1 := List.length_append
          rw [happ]
          constructor
          · rintro h (_ | i) hi
            · exact herr
            · rw [← Nat.add_assoc, Nat.add_right_comm]
              exact h i (Nat.lt_of_succ_lt_succ hi)
          · intro h i hi
            have hsucc := h (i + 1) (Nat.succ_lt_succ hi)
            rwa [← Nat.add_assoc, Nat.add_right_comm] at hsucc
      · rw [sendorfree_error herr]
        refine ⟨[p], rest, rfl, rfl, fun _ => List.cons_ne_nil _ _, ?_⟩
        constructor
        · rintro rfl i hi
          rw [List.length_singleton] at hi
          omega
        · intro h
          by_contra hrest
          have hpos := List.length_pos_iff.mpr hrest
          exact herr (h 0 (by rw [List.length_cons]; omega))

/-! ## The header -/

/-- A packet with `optlen` bytes of options in front of it, or with none. -/
structure Inserted (e : IpOutEnv) (m0 p : OutPkt) (optlen : ℕ) (s : OutState) : Prop where
  ipLen : p.ip.ipLen.toNat = p.len
  vhl : p.ip.ipVhl = m0.ip.ipVhl
  hdr : p.hdr = m0.hdr + optlen
  ids : (p.ids : Multiset MbufId) = m0.ids + madeIds e s.tries
  freed : s.freed = []
  sent : s.sent = []

variable {m0 : OutPkt} {o : OutOpt} {flags : BitVec 32}

theorem toNat_add_optlen (hle : o.ipoptList.length + m0.ip.ipLen.toNat ≤ iP_MAXPACKET) :
    (m0.ip.ipLen + BitVec.ofNat 16 o.ipoptList.length).toNat = m0.ip.ipLen.toNat + o.ipoptList.length := by
  have hmax : iP_MAXPACKET = 65535 := rfl
  rw [BitVec.toNat_add, BitVec.toNat_ofNat]
  omega

theorem madeIds_zero (e : IpOutEnv) : madeIds e 0 = 0 := rfl

theorem madeIds_one (e : IpOutEnv) : madeIds e 1 = if e.alloc 0 then {.made 0} else 0 := by
  rw [madeIds_succ, madeIds_zero, zero_add]

/-- With options inserted. -/
theorem ipInsertOptions_some (hfit : m0.Fits flags) (h : o.Inserts e m0) :
    ∃ p s, ipInsertOptions e m0 o ⟨0, [], []⟩ = (p, some (sizeofIp + o.ipoptList.length), s) ∧
      Inserted e m0 p o.ipoptList.length s ∧ (madeIds e s.tries = 0 ↔ ¬ NeedsHeader m0.m o.ipoptList.length) := by
  obtain ⟨hle, halloc⟩ := h
  have hsize := hfit.ipLen
  have hfirst := hfit.first
  have hlen := toNat_add_optlen hle
  have hdst : ∀ ip : Ip, ip.ipLen = m0.ip.ipLen → ip.ipVhl = m0.ip.ipVhl →
      (if o.ipoptDst ≠ 0 then { ip with ipDst := o.ipoptDst } else ip).ipLen = m0.ip.ipLen ∧
        (if o.ipoptDst ≠ 0 then { ip with ipDst := o.ipoptDst } else ip).ipVhl = m0.ip.ipVhl := by
    intro ip hl hv
    split_ifs
    · exact ⟨hl, hv⟩
    · exact ⟨hl, hv⟩
  obtain ⟨hdl, hdv⟩ := hdst m0.ip rfl rfl
  rw [OutPkt.len, OutPkt.chain, List.map_cons, List.sum_cons] at hsize
  rw [ipInsertOptions, if_neg (Nat.not_lt.mpr hle)]
  dsimp only
  by_cases hneeds : NeedsHeader m0.m o.ipoptList.length
  · have hzero : e.alloc (OutState.mk 0 [] []).tries = true := halloc hneeds
    rw [if_pos hneeds, mGet_some hzero]
    refine ⟨_, _, rfl, ⟨?_, hdv, rfl, ?_, rfl, rfl⟩, iff_of_false ?_ (not_not.mpr hneeds)⟩
    · rw [OutPkt.putOptions, OutPkt.len, OutPkt.chain, List.map_cons, List.map_cons, List.sum_cons, List.sum_cons]
      dsimp only
      rw [hdl, hlen]
      omega
    · dsimp only
      rw [madeIds_one, if_pos (halloc hneeds)]
      exact (Multiset.singleton_add (MbufId.made 0) (m0.ids : Multiset MbufId)).symm.trans (add_comm _ _)
    · dsimp only
      rw [madeIds_one, if_pos (halloc hneeds)]
      exact Multiset.singleton_ne_zero _
  · rw [if_neg hneeds]
    refine ⟨_, _, rfl, ⟨?_, hdv, rfl, (add_zero _).symm, rfl, rfl⟩, iff_of_true rfl hneeds⟩
    rw [OutPkt.putOptions, OutPkt.len, OutPkt.chain, List.map_cons, List.sum_cons]
    dsimp only
    rw [hdl, hlen]
    omega

/-- Without. -/
theorem ipInsertOptions_none (hfit : m0.Fits flags) (h : ¬ o.Inserts e m0) :
    ∃ p s, ipInsertOptions e m0 o ⟨0, [], []⟩ = (p, none, s) ∧ Inserted e m0 p 0 s ∧ madeIds e s.tries = 0 := by
  rw [ipInsertOptions]
  by_cases hle : o.ipoptList.length + m0.ip.ipLen.toNat ≤ iP_MAXPACKET
  · have hneeds : NeedsHeader m0.m o.ipoptList.length := by
      by_contra hneeds
      exact h ⟨hle, fun hn => absurd hn hneeds⟩
    have halloc : ¬ e.alloc (OutState.mk 0 [] []).tries = true := fun halloc => h ⟨hle, fun _ => halloc⟩
    have hmade : madeIds e 1 = 0 := by rw [madeIds_one, if_neg halloc]
    rw [if_neg (Nat.not_lt.mpr hle)]
    dsimp only
    rw [if_pos hneeds, mGet_none halloc]
    refine ⟨_, _, rfl, ⟨?_, ?_, rfl, ?_, rfl, rfl⟩, hmade⟩
    · dsimp only
      split_ifs
      · exact hfit.ipLen
      · exact hfit.ipLen
    · dsimp only
      split_ifs
      · rfl
      · rfl
    · exact ((congrArg _ hmade).trans (add_zero _)).symm
  · rw [if_pos (Nat.not_le.mp hle)]
    exact ⟨_, _, rfl, ⟨hfit.ipLen, rfl, rfl, (add_zero _).symm, rfl, rfl⟩, rfl⟩

/-- The packet with its header filled in. -/
structure Headed (e : IpOutEnv) (m0 p : OutPkt) (hlen : ℕ) (s : OutState) : Prop where
  ipLen : p.ip.ipLen.toNat = p.len
  hl_le : 4 * p.ip.ipHl.toNat ≤ hlen
  hl_eq : hlen ≤ sizeofIp → 4 * p.ip.ipHl.toNat = sizeofIp
  le_hlen : sizeofIp ≤ hlen
  ids : (p.ids : Multiset MbufId) = m0.ids + madeIds e s.tries
  freed : s.freed = []
  sent : s.sent = []

theorem Inserted.ipHl {p : OutPkt} {optlen : ℕ} (h : Inserted e m0 p optlen s) : p.ip.ipHl = m0.ip.ipHl := by
  rw [Ip.ipHl, h.vhl]
  rfl

/-- The header exists. -/
theorem Inserted.headed {p : OutPkt} {optlen : ℕ} (h : Inserted e m0 p optlen s) (hfit : m0.Fits flags)
    (hflags : HasHeader flags) : Headed e m0 p (4 * p.ip.ipHl.toNat) s := by
  have hhdr := hfit.hdr
  have hle := hfit.hdr_le
  rw [if_pos hflags, ← h.ipHl] at hhdr
  exact ⟨h.ipLen, le_rfl, fun hl => by omega, by omega, h.ids, h.freed, h.sent⟩

/-- The header is filled in. -/
theorem Inserted.fill {p : OutPkt} {optlen : ℕ} (h : Inserted e m0 p optlen s) (v : BitVec 4) (ipOff ipId : BitVec 16) :
    Headed e m0
      { p with ip :=
          { p.ip.setVersion v with ipOff := ipOff, ipId := ipId }.setHl (BitVec.ofNat 4 ((sizeofIp + optlen) / 4)) }
      (sizeofIp + optlen) s := by
  have hip : sizeofIp = 20 := rfl
  refine ⟨h.ipLen, ?_, fun hle => ?_, Nat.le_add_right _ _, h.ids, h.freed, h.sent⟩
  · dsimp only
    rw [ipHl_setHl, toNat_hl]
    omega
  · dsimp only
    rw [ipHl_setHl, toNat_hl]
    omega

theorem hl_fill_iff {optlen : ℕ} (hle : optlen ≤ mAX_IPOPTLEN) :
    4 * (BitVec.ofNat 4 ((sizeofIp + optlen) / 4)).toNat = sizeofIp + optlen ↔ 4 ∣ optlen := by
  have hip : sizeofIp = 20 := rfl
  have hmax : mAX_IPOPTLEN = 40 := rfl
  rw [toNat_hl]
  omega

variable {opt : Option OutOpt}

/-- What `ip_output` does before it looks for a route. -/
theorem ipHeader_spec (hfit : m0.Fits flags) (h : ipHeader e m0 opt flags ⟨0, [], []⟩ = some (p, hlen, s)) :
    Headed e m0 p hlen s ∧ (madeIds e s.tries = 0 ↔ ¬ NewHeader e m0 opt) ∧
      (4 * p.ip.ipHl.toNat = p.hdr ↔ HlOk e m0 opt flags) := by
  have hhdr := hfit.hdr
  cases opt with
  | none =>
      have hins : Inserted e m0 m0 0 ⟨0, [], []⟩ := ⟨hfit.ipLen, rfl, rfl, (add_zero _).symm, rfl, rfl⟩
      have hnew : ¬ NewHeader e m0 none := by
        rintro ⟨o, ho, -⟩
        cases ho
      have hok : HlOk e m0 none flags := fun o ho => by cases ho
      rw [ipHeader] at h
      dsimp only at h
      by_cases hflags : HasHeader flags
      · rw [if_pos hflags] at h
        cases h
        rw [if_pos hflags] at hhdr
        exact ⟨hins.headed hfit hflags, iff_of_true rfl hnew, iff_of_true hhdr.symm hok⟩
      · rw [if_neg hflags, Option.map_some] at h
        cases h
        rw [if_neg hflags] at hhdr
        refine ⟨hins.fill _ _ _, iff_of_true rfl hnew, iff_of_true ?_ hok⟩
        dsimp only
        rw [ipHl_setHl, hhdr]
        rfl
  | some o =>
      have hnew : NewHeader e m0 (some o) ↔ o.Inserts e m0 ∧ NeedsHeader m0.m o.ipoptList.length := by
        rw [NewHeader]
        exact ⟨by rintro ⟨o', ho, h⟩; cases ho; exact h, fun h => ⟨o, rfl, h⟩⟩
      have hok : HlOk e m0 (some o) flags ↔
          (o.Inserts e m0 → if HasHeader flags then o.ipoptList = [] else 4 ∣ o.ipoptList.length) := by
        rw [HlOk]
        exact ⟨fun h => h o rfl, fun h o' ho => by cases ho; exact h⟩
      rw [ipHeader] at h
      dsimp only at h
      by_cases hins : o.Inserts e m0
      · obtain ⟨q, t, hq, hsome, hmade⟩ := ipInsertOptions_some hfit hins
        have hhdr' := hsome.hdr
        rw [hq] at h
        dsimp only at h
        rw [hnew, hok, and_iff_right hins, forall_prop_of_true hins]
        by_cases hflags : HasHeader flags
        · rw [if_pos hflags] at h hhdr ⊢
          cases h
          refine ⟨hsome.headed hfit hflags, hmade, ?_⟩
          rw [hsome.ipHl, hhdr', hhdr, ← List.length_eq_zero_iff]
          omega
        · rw [if_neg hflags, Option.map_some] at h
          rw [if_neg hflags] at hhdr ⊢
          cases h
          refine ⟨hsome.fill _ _ _, hmade, ?_⟩
          dsimp only
          rw [ipHl_setHl, hhdr', hhdr]
          exact hl_fill_iff o.length_le
      · obtain ⟨q, t, hq, hnone, hmade⟩ := ipInsertOptions_none hfit hins
        have hhdr' := hnone.hdr
        rw [hq] at h
        dsimp only at h
        rw [hnew, hok]
        by_cases hflags : HasHeader flags
        · rw [if_pos hflags] at h hhdr
          cases h
          refine ⟨hnone.headed hfit hflags, iff_of_true hmade fun hn => hins hn.1,
            iff_of_true ?_ fun hi => absurd hi hins⟩
          rw [hnone.ipHl, hhdr', hhdr, Nat.add_zero]
        · rw [if_neg hflags, Option.map_none] at h
          cases h

theorem ipHeader_isSome_iff (hfit : m0.Fits flags) :
    (ipHeader e m0 opt flags ⟨0, [], []⟩).isSome ↔ (¬ HasHeader flags → ∀ o ∈ opt, o.Inserts e m0) := by
  cases opt with
  | none =>
      rw [ipHeader]
      dsimp only
      by_cases hflags : HasHeader flags
      · rw [if_pos hflags]
        exact iff_of_true rfl fun hn => absurd hflags hn
      · rw [if_neg hflags]
        exact iff_of_true rfl fun _ o ho => by cases ho
  | some o =>
      have hall : (∀ o' ∈ some o, o'.Inserts e m0) ↔ o.Inserts e m0 :=
        ⟨fun h => h o rfl, fun h o' ho => by cases ho; exact h⟩
      rw [ipHeader, hall]
      dsimp only
      by_cases hflags : HasHeader flags
      · rw [if_pos hflags]
        exact iff_of_true rfl fun hn => absurd hflags hn
      rw [if_neg hflags, Option.isSome_map, forall_prop_of_true hflags]
      by_cases hins : o.Inserts e m0
      · obtain ⟨q, t, hq, -⟩ := ipInsertOptions_some hfit hins
        rw [hq]
        exact iff_of_true rfl hins
      · obtain ⟨q, t, hq, -⟩ := ipInsertOptions_none hfit hins
        rw [hq]
        exact iff_of_false Bool.false_ne_true hins

/-! ## The exits -/

variable {ro : Option OutRoute} {imo : Option OutMoptions} {ifp : OutIf} {ip ip' : Ip} {ia : OutIa} {dst : InAddr}

/-- The route decides about `ip_ttl` and `ip_src`. -/
theorem ipCast_frame (h : ipCast e flags imo ia ifp dst ip = .sendit ifp' ip') :
    ip' = { ip with ipTtl := ip'.ipTtl, ipSrc := ip'.ipSrc } := by
  rw [ipCast] at h
  dsimp only at h
  by_cases hmulti : inMulticast (swab32 ip.ipDst) = true
  · rw [if_pos hmulti] at h
    by_cases hif : ((imo.bind OutMoptions.imoMulticastIfp).getD ifp).iffMulticast = false
    · rw [if_pos hif] at h
      cases h
    rw [if_neg hif] at h
    by_cases httl : imo.elim iP_DEFAULT_MULTICAST_TTL OutMoptions.imoMulticastTtl = 0
    · rw [if_pos httl] at h
      cases h
    rw [if_neg httl] at h
    cases h
    rfl
  · rw [if_neg hmulti] at h
    by_cases hcast : inBroadcast dst ifp.toRcvIf = true
    · rw [if_pos hcast] at h
      by_cases hif : ifp.iffBroadcast = false
      · rw [if_pos hif] at h
        cases h
      rw [if_neg hif] at h
      by_cases hallow : flags &&& iP_ALLOWBROADCAST = 0
      · rw [if_pos hallow] at h
        cases h
      rw [if_neg hallow] at h
      by_cases hmtu : ifp.ifMtu.toNat < ip.ipLen.toNat
      · rw [if_pos hmtu] at h
        cases h
      rw [if_neg hmtu] at h
      cases h
      rfl
    · rw [if_neg hcast] at h
      cases h
      rfl

theorem ipRoute_frame (h : ipRoute e ro flags imo ip = .sendit ifp ip') :
    ip' = { ip with ipTtl := ip'.ipTtl, ipSrc := ip'.ipSrc } := by
  rw [ipRoute] at h
  by_cases hif : flags &&& iP_ROUTETOIF ≠ 0
  · rw [if_pos hif] at h
    split at h
    · cases h
    · exact (ipCast_frame h).trans rfl
  · rw [if_neg hif] at h
    split at h
    · cases h
    · exact ipCast_frame h

theorem Headed.route (hh : Headed e m0 p hlen s) (hip : ip' = { p.ip with ipTtl := ip'.ipTtl, ipSrc := ip'.ipSrc }) :
    Headed e m0 { p with ip := ip' } hlen s := by
  rw [hip]
  exact ⟨hh.ipLen, hh.hl_le, hh.hl_eq, hh.le_hlen, hh.ids, hh.freed, hh.sent⟩

/-- What the loop at `sendorfree` leaves of packets that it frees. -/
theorem ids_eq_heads_iff (l : List OutPkt) :
    (l.flatMap OutPkt.ids : Multiset MbufId) = (l.map fun p => p.m.id : List MbufId) ↔ ∀ p ∈ l, p.mNext = [] := by
  have hsplit : (l.flatMap OutPkt.ids : Multiset MbufId) =
      (l.map fun p => p.m.id : List MbufId) + (l.flatMap fun p => p.mNext.map OutMbuf.id : List MbufId) := by
    induction l with
    | nil => rfl
    | cons p l ih =>
        have hids : (p.ids : Multiset MbufId) = {p.m.id} + (p.mNext.map OutMbuf.id : List MbufId) :=
          (Multiset.singleton_add p.m.id (p.mNext.map OutMbuf.id : List MbufId)).symm
        rw [List.flatMap_cons, List.flatMap_cons, ← Multiset.coe_add, ← Multiset.coe_add, ih, List.map_cons,
          ← Multiset.cons_coe, ← Multiset.singleton_add, hids]
        abel
  rw [hsplit, add_eq_left, Multiset.coe_eq_zero, List.flatMap_eq_nil_iff]
  exact forall₂_congr fun p _ => List.map_eq_nil_iff

/-- What is sent or freed, and what should be. -/
def ExitRight (e : IpOutEnv) (m0 : OutPkt) (r : Option (ℤ × OutState)) : Prop :=
  ∃ error s, r = some (error, s) ∧ s.Consumed e m0.ids ∧ ∀ p ∈ s.sent, p.HeaderRight

theorem exitRight_some {error : ℤ} :
    ExitRight e m0 (some (error, s)) ↔ s.Consumed e m0.ids ∧ ∀ p ∈ s.sent, p.HeaderRight := by
  constructor
  · rintro ⟨error', s', heq, h⟩
    cases heq
    exact h
  · exact fun h => ⟨error, s, rfl, h⟩

/-- `bad`. -/
theorem Headed.bad_iff (hh : Headed e m0 p hlen s) (error : ℤ) :
    ExitRight e m0 (some (error, s.mFreem m0.ids)) ↔ madeIds e s.tries = 0 := by
  rw [exitRight_some]
  have hsent : (s.mFreem m0.ids).sent = [] := hh.sent
  rw [hsent, OutState.Consumed, OutState.sentIds, hsent, OutState.mFreem, hh.freed]
  change ((m0.ids : Multiset MbufId) + 0 = m0.ids + madeIds e s.tries ∧ _) ↔ _
  rw [add_right_inj, eq_comm (a := 0)]
  exact and_iff_left (List.forall_mem_nil _)

/-- One packet. -/
theorem Headed.send_iff (hh : Headed e m0 p hlen s) (hle : p.ip.ipLen.toNat ≤ ifp.ifMtu.toNat) :
    ExitRight e m0 (ipSenditOut e m0.ids ifp p hlen s) ↔ 4 * p.ip.ipHl.toNat = p.hdr := by
  have hlen' : (htons (htons p.ip.ipLen)).toNat = p.len := by
    rw [htons, htons, swap16_swap16, hh.ipLen]
  rw [ipSenditOut, if_pos hle, ifOutput, exitRight_some, hh.sent, OutState.Consumed, OutState.sentIds, hh.freed,
    List.nil_append, List.forall_mem_singleton, List.flatMap_singleton]
  have hids := hh.ids
  rw [and_iff_right]
  · exact and_iff_left hlen'
  · change (0 : Multiset MbufId) + p.ids = _
    rw [zero_add, hids]

/-- A packet that cannot be cut. -/
theorem Headed.noFrag_iff (hh : Headed e m0 p hlen s) (hgt : ¬ p.ip.ipLen.toNat ≤ ifp.ifMtu.toNat)
    (hno : p.ip.ipOff &&& ipDF ≠ 0 ∨ (ifp.ifMtu.toNat - hlen) / 8 * 8 < 8) :
    ExitRight e m0 (ipSenditOut e m0.ids ifp p hlen s) ↔ madeIds e s.tries = 0 := by
  rw [ipSenditOut, if_neg hgt]
  by_cases hdf : p.ip.ipOff &&& ipDF ≠ 0
  · rw [if_pos hdf]
    exact hh.bad_iff _
  · rw [if_neg hdf]
    dsimp only
    rw [if_pos (hno.resolve_left hdf)]
    exact hh.bad_iff _

/-- A packet that is cut. -/
theorem ipSenditOut_frag (hgt : ¬ p.ip.ipLen.toNat ≤ ifp.ifMtu.toNat) (hdf : ¬ p.ip.ipOff &&& ipDF ≠ 0)
    (hlen' : (ifp.ifMtu.toNat - hlen) / 8 * 8 = len) (hge : ¬ len < 8) :
    ipSenditOut e m0.ids ifp p hlen s =
      (outFragments e p hlen (p.ip.ipLen.toNat + 1) (hlen + len) len s).map fun (error, frags, s) =>
        sendorfree e error ((if error = 0 then firstFragment e p hlen len else p) :: frags) s := by
  rw [ipSenditOut, if_neg hgt, if_neg hdf]
  dsimp only
  rw [hlen', if_neg hge, Option.map_eq_bind]
  rfl

section

variable {hgt : ¬ p.ip.ipLen.toNat ≤ ifp.ifMtu.toNat} {error : ℤ} {frags : List OutPkt}

/-- The loop has stopped with an error. -/
theorem Headed.error_iff (hh : Headed e m0 p hlen s) (herr : error ≠ 0) (hsent : s'.sent = s.sent)
    (hids : (s'.freed : Multiset MbufId) + (frags.flatMap OutPkt.ids : List MbufId) + madeIds e s.tries =
      s.freed + madeIds e s'.tries) :
    ExitRight e m0 (some (sendorfree e error (p :: frags) s')) ↔ ∀ x ∈ p :: frags, x.mNext = [] := by
  rw [sendorfree_error herr, exitRight_some, OutState.Consumed, OutState.sentIds, hsent, hh.sent]
  rw [and_iff_left (List.forall_mem_nil _), ← ids_eq_heads_iff, List.flatMap_nil, Multiset.coe_nil, add_zero,
    ← Multiset.coe_add]
  rw [hh.freed, Multiset.coe_nil, zero_add] at hids
  rw [← hids, List.flatMap_cons, ← Multiset.coe_add, hh.ids]
  have hsum : (m0.ids : Multiset MbufId) +
      ((s'.freed : Multiset MbufId) + (frags.flatMap OutPkt.ids : List MbufId) + madeIds e s.tries) =
      s'.freed + (m0.ids + madeIds e s.tries + (frags.flatMap OutPkt.ids : List MbufId)) := by abel
  rw [hsum, add_right_inj, eq_comm]

/-- The loop has made all fragments. -/
theorem Headed.done_iff {firstlen : ℕ} (hh : Headed e m0 p hlen s) (hsent : s'.sent = s.sent)
    (hids : (s'.freed : Multiset MbufId) + (frags.flatMap OutPkt.ids : List MbufId) + madeIds e s.tries =
      s.freed + madeIds e s'.tries)
    (hall : ∀ x ∈ frags, x.HeaderRight ∧ x.mNext ≠ []) (hle : hlen + firstlen ≤ p.ip.ipLen.toNat) :
    ExitRight e m0 (some (sendorfree e 0 (firstFragment e p hlen firstlen :: frags) s')) ↔
      4 * p.ip.ipHl.toNat = p.hdr ∧ ∀ i < frags.length, e.ifOutput i = 0 := by
  obtain ⟨hfirst, hright⟩ := firstFragment_spec e hh.ipLen hle
  obtain ⟨a, b, hsplit, hres, hne, hiff⟩ := sendorfree_spec e (firstFragment e p hlen firstlen :: frags) s'
  obtain ⟨error, hpair⟩ : ∃ error, sendorfree e 0 (firstFragment e p hlen firstlen :: frags) s' =
    (error, (sendorfree e 0 (firstFragment e p hlen firstlen :: frags) s').2) := ⟨_, rfl⟩
  obtain ⟨x, a, rfl⟩ := List.exists_cons_of_ne_nil (hne (List.cons_ne_nil _ _))
  rw [List.cons_append] at hsplit
  obtain ⟨rfl, rfl⟩ := List.cons.inj hsplit
  rw [hsent, hh.sent] at hiff
  have htaken : b = [] ↔ ∀ i < (a ++ b).length, e.ifOutput i = 0 := by
    rw [hiff]
    refine forall_congr' fun i => ?_
    rw [List.length_cons, Nat.succ_lt_succ_iff, List.length_nil, Nat.zero_add]
  rw [← htaken, hpair, exitRight_some, hres, OutState.Consumed, OutState.sentIds]
  dsimp only
  rw [hsent, hh.sent, List.nil_append, ← Multiset.coe_add]
  rw [hh.freed, Multiset.coe_nil, zero_add] at hids
  have hleft : b = [] ↔ ∀ x ∈ b, x.mNext = [] := by
    constructor
    · rintro rfl
      exact List.forall_mem_nil _
    · intro h
      refine List.eq_nil_iff_forall_not_mem.mpr fun x hx => ?_
      exact (hall x (List.mem_append_right _ hx)).2 (h x hx)
  have hconsumed : (s'.freed : Multiset MbufId) + (b.map fun p => p.m.id : List MbufId) +
      ((firstFragment e p hlen firstlen :: a).flatMap OutPkt.ids : List MbufId) = m0.ids + madeIds e s'.tries ↔
      b = [] := by
    rw [hleft, ← ids_eq_heads_iff, ← hids, List.flatMap_cons, List.flatMap_append, hfirst, ← Multiset.coe_add,
      ← Multiset.coe_add, hh.ids]
    have hsum : (m0.ids : Multiset MbufId) + ((s'.freed : Multiset MbufId) +
        ((a.flatMap OutPkt.ids : List MbufId) + (b.flatMap OutPkt.ids : List MbufId)) + madeIds e s.tries) =
        s'.freed + (b.flatMap OutPkt.ids : List MbufId) +
          (m0.ids + madeIds e s.tries + (a.flatMap OutPkt.ids : List MbufId)) := by abel
    rw [hsum, add_left_inj, add_right_inj, eq_comm]
  rw [hconsumed, and_comm]
  refine and_congr_left fun _ => ?_
  rw [List.forall_mem_cons, hright]
  exact and_iff_left fun x hx => (hall x (List.mem_append_left _ hx)).1

end

/-- The exits behind the loop. -/
theorem Headed.frag_iff (hh : Headed e m0 p hlen s) (hgt : ¬ p.ip.ipLen.toNat ≤ ifp.ifMtu.toNat)
    (hdf : ¬ p.ip.ipOff &&& ipDF ≠ 0) (hlen' : (ifp.ifMtu.toNat - hlen) / 8 * 8 = len) (hge : ¬ len < 8) :
    ExitRight e m0 (ipSenditOut e m0.ids ifp p hlen s) ↔
      (p.mNext = [] ∧ e.alloc s.tries = false) ∨
        (4 * p.ip.ipHl.toNat = p.hdr ∧ FragsOk e p hlen len ((p.ip.ipLen.toNat - hlen - 1) / len) s) := by
  have hlt : hlen + len < p.ip.ipLen.toNat := by omega
  have hpos : 0 < len := by omega
  have hleft := FragsLeft.first hpos hlt
  have hn : (p.ip.ipLen.toNat - hlen - 1) / len ≠ 0 := (Nat.div_pos (by omega) hpos).ne'
  have hmax : max sizeofIp (4 * p.ip.ipHl.toNat) ≤ hlen := max_le hh.le_hlen hh.hl_le
  rw [ipSenditOut_frag hgt hdf hlen' hge]
  constructor
  · intro hright
    cases hloop : outFragments e p hlen (p.ip.ipLen.toNat + 1) (hlen + len) len s with
    | none =>
        rw [hloop] at hright
        obtain ⟨error, s', heq, -⟩ := hright
        cases heq
    | some r =>
        obtain ⟨error, frags, s'⟩ := r
        obtain ⟨hsent, hids, hall, hzero⟩ :=
          outFragments_spec hh.hl_eq hmax hh.ipLen hpos (Nat.le_add_right _ _) hleft hloop
        rw [hloop, Option.map_some] at hright
        dsimp only at hright
        by_cases herr : error = 0
        · subst herr
          rw [if_pos rfl, hh.done_iff hsent hids hall hlt.le] at hright
          obtain ⟨hcount, hwalk, hmem⟩ := hzero rfl
          rw [hcount] at hright
          exact .inr ⟨hright.1, (mhipOf_isSome_iff p hlen).mp (hwalk hn), hmem, hright.2⟩
        · rw [if_neg herr, hh.error_iff herr hsent hids, List.forall_mem_cons] at hright
          refine .inl ⟨hright.1, Bool.eq_false_of_not_eq_true fun halloc => ?_⟩
          have hsome := outFragments_single hh.ipLen hright.1 hpos hlt halloc hloop
          obtain ⟨x, hx⟩ := List.exists_mem_of_ne_nil _ hsome
          exact (hall x hx).2 (hright.2 x hx)
  · rintro (⟨hsingle, halloc⟩ | ⟨hhdr, hok⟩)
    · have hfail : ¬ e.alloc s.tries = true := by rw [halloc]; exact Bool.false_ne_true
      have hnobufs : -eNOBUFS ≠ 0 := by decide
      rw [outFragments_noHeader hlt hfail, Option.map_some]
      dsimp only
      have hids : (s.freed : Multiset MbufId) + (([] : List OutPkt).flatMap OutPkt.ids : List MbufId) +
          madeIds e s.tries = s.freed + madeIds e (s.tries + 1) := by
        rw [madeIds_succ, if_neg hfail, add_zero, List.flatMap_nil, Multiset.coe_nil, add_zero]
      rw [if_neg hnobufs]
      refine (hh.error_iff hnobufs ?_ ?_).mpr (List.forall_mem_singleton.mpr hsingle)
      · rfl
      · exact hids
    · have hfuel : (p.ip.ipLen.toNat - hlen - 1) / len < p.ip.ipLen.toNat + 1 := by
        have hdiv := Nat.div_le_self (p.ip.ipLen.toNat - hlen - 1) len
        omega
      obtain ⟨frags, s', hloop⟩ :=
        outFragments_of_alloc hpos hh.ipLen hfuel hleft ((mhipOf_isSome_iff p hlen).mpr hok.walk) hok.memory
      obtain ⟨hsent, hids, hall, hzero⟩ :=
        outFragments_spec hh.hl_eq hmax hh.ipLen hpos (Nat.le_add_right _ _) hleft hloop
      rw [hloop, Option.map_some]
      dsimp only
      rw [if_pos rfl, hh.done_iff hsent hids hall hlt.le, (hzero rfl).1]
      exact ⟨hhdr, hok.taken⟩

/-- Nothing is routed, and there is memory for everything. -/
def noRoute : IpOutEnv where
  alloc := fun _ => true
  ifOutput := fun _ => 0
  ipId := 0
  inCksum := fun _ _ => 0
  ifaIfwithdstaddr := fun _ => none
  ifaIfwithnet := fun _ => none
  rtalloc := fun _ => none
  inIfaddr := []

/-- A header in a cluster. -/
def barePkt : OutPkt :=
  ⟨⟨.given 0, true, 0, 20⟩, [], 20, ⟨0x45, 0, 20, 0, 0, 64, 17, 0, 0x0100007f, 0x0100007f⟩, fun _ => 0, 20⟩

def nopOpt : OutOpt := ⟨0, [ipoptNOP, ipoptNOP, ipoptNOP, ipoptEOL], by decide⟩

theorem barePkt_fits : barePkt.Fits 0 := ⟨rfl, by decide, rfl, by decide⟩

end

end Shaunos.Net
