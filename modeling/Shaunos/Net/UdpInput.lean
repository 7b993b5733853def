import Shaunos.Net.Cksum
import Shaunos.Net.IpOptions
import Shaunos.Net.MbufPullup
import Shaunos.Net.PcbCache
import Shaunos.Net.SockBuf
import Shaunos.Net.UdpOutput

/-!
# Receiving a datagram

Reference: `Kernel/netinet/udp_usrreq.c` (`udp_input`, `udp_saveopt`), `Kernel/netinet/ip_input.c` (`ip_stripoptions`),
`Kernel/netinet/in.c` (`in_broadcast`), `Kernel/net/uipc_socket2.c` (`sbappendaddr`).

A datagram is cut to `uh_ulen` bytes, which may be less than a header has, and then 28 bytes of headers are taken off
the first mbuf whatever is in it.

* `udpPull_spec`, `UdpPulled.trim` — what is left of the packet;
* `udpCheck_eq`, `sumTaken_iff` — which checksums are taken.
-/

namespace Shaunos.Net

/-! ## The code -/

def mtCONTROL : ℤ := 14

def iNP_RECVDSTADDR : BitVec 32 := 0x04
def iNP_CONTROLOPTS : BitVec 32 := 0x07

def sizeofCmsghdr : ℕ := 12

/-- A word as it stands in memory, of two or of four bytes. -/
def leWord (l : List Byte) (o : ℕ) : BitVec 16 := l.getD (o + 1) 0 ++ l.getD o 0

def leDword (l : List Byte) (o : ℕ) : BitVec 32 := leWord l (o + 2) ++ leWord l o

/-- The bytes of a word. -/
def dwordBytes (x : BitVec 32) : List Byte :=
  [x.extractLsb' 0 8, x.extractLsb' 8 8, x.extractLsb' 16 8, x.extractLsb' 24 8]

/-- `struct ip` without options and `struct udphdr`, as they stand in front of a datagram. -/
structure UdpHead where
  ipLen : BitVec 16
  ipSrc : InAddr
  ipDst : InAddr
  uhSport : BitVec 16
  uhDport : BitVec 16
  uhUlen : BitVec 16
  uhSum : BitVec 16

def udpHead (l : List Byte) : UdpHead where
  ipLen := leWord l 2
  ipSrc := leDword l 12
  ipDst := leDword l 16
  uhSport := leWord l 20
  uhDport := leWord l 22
  uhUlen := leWord l 24
  uhSum := leWord l 26

/-- `len` -/
def UdpHead.len (h : UdpHead) : ℕ := (swap16 h.uhUlen).toNat

/-- An address of an interface. -/
structure InIfaddr where
  saFamily : Byte
  iaDstaddr : InAddr
  iaNetbroadcast : InAddr
  iaSubnet : BitVec 32
  iaNet : BitVec 32

/-- What `in_broadcast` reads of `rcvif`. -/
structure RcvIf where
  /-- `if_flags & IFF_BROADCAST` -/
  iffBroadcast : Bool
  ifAddrlist : List InIfaddr

/-- `in_broadcast` -/
def inBroadcast (ina : InAddr) (ifp : RcvIf) : Bool :=
  if ina = iNADDR_BROADCAST ∨ ina = iNADDR_ANY then true
  else if ifp.iffBroadcast = false then false
  else
    let t := swab32 ina
    ifp.ifAddrlist.any fun ifa =>
      ifa.saFamily = aF_INET ∧
        (ina = ifa.iaDstaddr ∨ ina = ifa.iaNetbroadcast ∨ t = ifa.iaSubnet ∨ t = ifa.iaNet)

/-- What `udp_input` meets. The memory that is found: an mbuf for `m_pullup`, one for the control data, those for the
copy that a socket gets, and one for the address. -/
structure UdpInEnv (κ ι : Type*) where
  rcvif : RcvIf
  /-- `m_flags & (M_BCAST | M_MCAST)` -/
  linkCast : Bool
  /-- Where the bytes of an mbuf lie. -/
  mtod : ClMbuf κ → BitVec 32
  inpFlags : ι → BitVec 32
  clusters : Finset κ
  pullMem : Bool
  optMem : Bool
  copyMem : ι → ℕ
  addrMem : ι → Bool

/-- Where the kernel goes wrong. -/
inductive UdpFault where
  /-- A null pointer is followed, or one to memory that was freed. -/
  | pointer
  /-- A function panics. -/
  | panic
  /-- `m_len` is less than zero from here on. -/
  | negative
deriving DecidableEq

/-- What becomes of the packet. -/
inductive UdpEnd (κ : Type*) where
  | freed
  | icmp (c : List (ClMbuf κ))
  | appended

/-- What `udp_input` leaves. -/
structure UdpDone (κ ι : Type*) where
  rcv : ι → SockBuf
  last : LastInpcb ι
  udpIn : SockaddrIn
  ended : UdpEnd κ

/-- The bytes of `udp_in` that `sa_len` counts. -/
def SockaddrIn.sockaddr (a : SockaddrIn) : Sockaddr :=
  let bytes : List Byte :=
    a.sinLen :: a.sinFamily :: a.sinPort.extractLsb' 0 8 :: a.sinPort.extractLsb' 8 8 ::
      (dwordBytes a.sinAddr ++ List.replicate 8 0)
  ⟨bytes.take a.sinLen.toNat, by
    rw [List.length_take]
    have := a.sinLen.isLt
    omega⟩

/-- `udp_in` with the port and the address that a datagram came from. -/
def SockaddrIn.fromHead (a : SockaddrIn) (h : UdpHead) : SockaddrIn :=
  { a with sinPort := h.uhSport, sinAddr := h.ipSrc }

/-- The same for a broadcast. -/
def SockaddrIn.fromCast (a : SockaddrIn) (h : UdpHead) : SockaddrIn := { a.fromHead h with sinLen := 16 }

/-- `ip_stripoptions`, for the first mbuf. -/
def ClMbuf.stripoptions {κ : Type*} (m : ClMbuf κ) : ClMbuf κ :=
  let ipVhl := m.bytes.headD 0
  let olen := 4 * (ipVhl &&& 0x0f).toNat - sizeofIp
  { m with
    bytes := (ipVhl &&& 0xf0 ||| 5) :: (m.bytes.take sizeofIp).tail ++ m.bytes.drop (sizeofIp + olen)
    mPkthdr := m.mPkthdr.map (· - olen) }

/-- Bytes are written over the first ones of a chain. -/
def patch {κ : Type*} (h : List Byte) : List (ClMbuf κ) → List (ClMbuf κ)
  | [] => []
  | m :: next => { m with bytes := (h ++ m.bytes.drop h.length).take m.mLen } :: next

/-- The headers as they are summed up: `ih_next`, `ih_prev` and `ih_x1` are null, and `ih_len` is `uh_ulen`. -/
def cksumHead (hd : List Byte) : List Byte :=
  List.replicate 9 0 ++ [hd.getD 9 0, hd.getD 24 0, hd.getD 25 0] ++ hd.drop 12

/-- `save_ip`, with `iphlen` added to `ip_len`. -/
def icmpHead (hd : List Byte) : List Byte :=
  let ipLen := leWord hd 2 + BitVec.ofNat 16 sizeofIp
  hd.take 2 ++ [ipLen.extractLsb' 0 8, ipLen.extractLsb' 8 8] ++ (hd.take sizeofIp).drop 4

section

variable {κ ι : Type*} [DecidableEq κ] [DecidableEq ι]

/-- What `mtod` leads to. -/
def headBytes : List (ClMbuf κ) → List Byte
  | [] => []
  | m :: _ => m.bytes.take sizeofUdpiphdr

/-- `udp_input` up to `uh`. Where `m_pullup` returns null, `m_freem` is called with it. -/
def udpPull (e : UdpInEnv κ ι) (iphlen : ℕ) : List (ClMbuf κ) → Except UdpFault (List (ClMbuf κ))
  | [] => .error .pointer
  | m :: next =>
      let m := if sizeofIp < iphlen then m.stripoptions else m
      if m.mLen < sizeofUdpiphdr then
        match mPullup ⟨[m :: next], e.clusters, []⟩ 0 sizeofUdpiphdr e.pullMem none with
        | none => .error .pointer
        | some s => if s.chain 0 = [] then .error .pointer else .ok (s.chain 0)
      else .ok (m :: next)

/-- The test of `ip_len`; `none` where the packet is dropped. -/
def udpTrim (h : UdpHead) (c : List (ClMbuf κ)) : Option (List (ClMbuf κ)) :=
  if h.ipLen.toInt ≠ h.len then
    if (h.len : ℤ) > h.ipLen.toInt then none else some (mAdjCl c (h.len - h.ipLen.toInt))
  else some c

/-- The test of the checksum; `none` where the packet is dropped. -/
def udpCheck (mtod : ClMbuf κ → BitVec 32) (hd : List Byte) (c : List (ClMbuf κ)) :
    Except UdpFault (Option (List (ClMbuf κ))) :=
  if (udpHead hd).uhSum = 0 then .ok (some c)
  else
    let c := patch (cksumHead hd) c
    match inCksum (c.map fun m => ⟨mtod m, m.bytes⟩) ((udpHead hd).len + sizeofIp) with
    | none => .error .panic
    | some sum => .ok (if sum = 0 then some (patch ((cksumHead hd).take 26 ++ [0, 0]) c) else none)

/-- `m->m_len` and `m->m_data` are moved behind the headers. -/
def udpStrip : List (ClMbuf κ) → Except UdpFault (List (ClMbuf κ))
  | [] => .error .pointer
  | m :: next =>
      if m.mLen < sizeofUdpiphdr then .error .negative
      else .ok ({ m with mData := m.mData + sizeofUdpiphdr, bytes := m.bytes.drop sizeofUdpiphdr } :: next)

/-- `m_copy(m, 0, M_COPYALL)`: the chain and its copy, where nothing is null. -/
def udpCopy (C : Finset κ) (c : List (ClMbuf κ)) (mem : ℕ) : Option (List (ClMbuf κ) × List (ClMbuf κ)) :=
  (mCopym ⟨[c], C, []⟩ 0 0 mCOPYALL mem).map fun s => (s.chain 0, s.chain 1)

/-- `sbappendaddr` for the socket of a block, and whether it takes the packet. -/
def udpAppend (asa : Sockaddr) (opts : List Mbuf) (mget : Bool) (rcv : ι → SockBuf) (i : ι) (c : List (ClMbuf κ)) :
    Except UdpFault (Bool × (ι → SockBuf)) :=
  match sbappendaddr (rcv i) asa (c.map ClMbuf.toMbuf) opts mget with
  | none => .error .panic
  | some (ret, sb) => .ok (if ret = 0 then (false, rcv) else (true, Function.update rcv i sb))

/-- A block that a broadcast is for. -/
def Inpcb.CastMatch (p : Inpcb) (h : UdpHead) : Prop :=
  p.inpLport = h.uhDport ∧ (p.inpLaddr ≠ iNADDR_ANY → p.inpLaddr = h.ipDst) ∧
    (p.inpFaddr ≠ iNADDR_ANY → p.inpFaddr = h.ipSrc ∧ p.inpFport = h.uhSport)

instance (p : Inpcb) (h : UdpHead) : Decidable (p.CastMatch h) := inferInstanceAs (Decidable (_ ∧ _ ∧ _))

/-- A socket that lets others have its port. -/
def PcbSocket.Shares (so : PcbSocket) : Prop := so.soOptions &&& (sO_REUSEPORT ||| sO_REUSEADDR) ≠ 0

instance (so : PcbSocket) : Decidable so.Shares := inferInstanceAs (Decidable (_ ≠ _))

/-- The copy that `last` gets. A copy that the socket does not take is freed, and so forgotten. -/
def castStep (e : UdpInEnv κ ι) (asa : Sockaddr) (s : List (ClMbuf κ) × (ι → SockBuf)) (last : ι) :
    Except UdpFault (List (ClMbuf κ) × (ι → SockBuf)) :=
  match udpCopy e.clusters s.1 (e.copyMem last) with
  | none => .error .panic
  | some (c, n) =>
      if n = [] then .ok (c, s.2)
      else (udpAppend asa [] (e.addrMem last) s.2 last n).map fun r => (c, r.2)

/-- The loop over the blocks. -/
def castLoop (e : UdpInEnv κ ι) (t : PcbTable ι) (h : UdpHead) (asa : Sockaddr) : Option ι → List ι →
    List (ClMbuf κ) × (ι → SockBuf) → Except UdpFault (Option ι × List (ClMbuf κ) × (ι → SockBuf))
  | last, [], s => .ok (last, s)
  | last, i :: rest, s =>
      if (t.inp i).CastMatch h then
        (last.elim (.ok s) (castStep e asa s)).bind fun s =>
          if (t.inp i).inpSocket.Shares then castLoop e t h asa (some i) rest s else .ok (some i, s)
      else castLoop e t h asa last rest s

/-- Multicast and broadcast. -/
def udpCast (e : UdpInEnv κ ι) (d : Demux ι) (rcv : ι → SockBuf) (udpIn : SockaddrIn) (h : UdpHead)
    (c : List (ClMbuf κ)) : Except UdpFault (UdpDone κ ι) :=
  let udpIn := udpIn.fromCast h
  (udpStrip c).bind fun c =>
    (castLoop e d.table h udpIn.sockaddr none d.table.chain (c, rcv)).bind fun (last, c, rcv) =>
      match last with
      | none => .ok ⟨rcv, d.last, udpIn, .freed⟩
      | some i => (udpAppend udpIn.sockaddr [] (e.addrMem i) rcv i c).map fun r =>
          ⟨r.2, d.last, udpIn, if r.1 then .appended else .freed⟩

/-- `udp_saveopt`, where it is called. -/
def udpOpts (e : UdpInEnv κ ι) (h : UdpHead) (i : ι) : List Mbuf :=
  if e.inpFlags i &&& iNP_CONTROLOPTS ≠ 0 ∧ e.inpFlags i &&& iNP_RECVDSTADDR ≠ 0 ∧ e.optMem then
    [{ mType := mtCONTROL, mExt := false, mEor := false, mPkthdr := none, mData := 0
       bytes := dwordBytes (BitVec.ofNat 32 (sizeofCmsghdr + 4)) ++ dwordBytes 0 ++ dwordBytes iNP_RECVDSTADDR ++
         dwordBytes h.ipDst }]
  else []

/-- From `inp = udp_last_inpcb` on. -/
def udpUnicast (e : UdpInEnv κ ι) (d : Demux ι) (rcv : ι → SockBuf) (udpIn : SockaddrIn) (hd : List Byte)
    (c : List (ClMbuf κ)) : Except UdpFault (UdpDone κ ι) :=
  let h := udpHead hd
  match d.findpcb h.ipSrc h.uhSport h.ipDst h.uhDport with
  | none => .error .pointer
  | some (none, last) =>
      .ok ⟨rcv, last, udpIn, if e.linkCast then .freed else .icmp (patch (icmpHead hd) c)⟩
  | some (some (.pcb i), last) =>
      let udpIn := udpIn.fromHead h
      (udpStrip c).bind fun c =>
        let c := c.modifyHead fun m => { m with mPkthdr := m.mPkthdr.map (· - sizeofUdpiphdr) }
        (udpAppend udpIn.sockaddr (udpOpts e h i) (e.addrMem i) rcv i c).map fun r =>
          ⟨r.2, last, udpIn, if r.1 then .appended else .freed⟩
  | some _ => .error .pointer

/-- The destination is a group, or everybody. -/
def UdpHead.IsCast (h : UdpHead) (ifp : RcvIf) : Prop :=
  inMulticast (swab32 h.ipDst) = true ∨ inBroadcast h.ipDst ifp = true

instance (h : UdpHead) (ifp : RcvIf) : Decidable (h.IsCast ifp) := inferInstanceAs (Decidable (_ ∨ _))

/-- `udp_input` -/
def udpInput (e : UdpInEnv κ ι) (d : Demux ι) (rcv : ι → SockBuf) (udpIn : SockaddrIn) (c : List (ClMbuf κ))
    (iphlen : ℕ) : Except UdpFault (UdpDone κ ι) :=
  (udpPull e iphlen c).bind fun c =>
    let hd := headBytes c
    let h := udpHead hd
    match udpTrim h c with
    | none => .ok ⟨rcv, d.last, udpIn, .freed⟩
    | some c => (udpCheck e.mtod hd c).bind fun c =>
        match c with
        | none => .ok ⟨rcv, d.last, udpIn, .freed⟩
        | some c => if h.IsCast e.rcvif then udpCast e d rcv udpIn h c else udpUnicast e d rcv udpIn hd c

end

/-! ## What should hold -/

section

variable {κ ι : Type*}

/-- What `ip_ours` hands over: a packet with a header, whose first mbuf has the header of IP with its options. -/
structure UdpReceived (c : List (ClMbuf κ)) (iphlen : ℕ) : Prop where
  hlen : iphlen = 4 * ((clBytes c).headD 0 &&& 0x0f).toNat
  le : sizeofIp ≤ iphlen
  head : ∃ m ∈ c.head?, iphlen ≤ m.mLen
  hdr : chainHdr c ≠ none

/-- The datagram: what follows the header of IP. -/
def udpData (c : List (ClMbuf κ)) (iphlen : ℕ) : List Byte := (clBytes c).drop iphlen

/-- The headers without options. -/
def udpHeaders (c : List (ClMbuf κ)) (iphlen : ℕ) : List Byte :=
  (clBytes c).take sizeofIp ++ (udpData c iphlen).take sizeofUdphdr

/-- The data: the bytes from 8 to `uh_ulen`. -/
def udpPayload (c : List (ClMbuf κ)) (iphlen : ℕ) : List Byte :=
  ((udpData c iphlen).take (udpHead (udpHeaders c iphlen)).len).drop sizeofUdphdr

/-- A datagram that may be taken: it has a header and lies in its packet, and its checksum is right or zero. -/
structure UdpValid (c : List (ClMbuf κ)) (iphlen : ℕ) : Prop where
  le_len : sizeofUdphdr ≤ (udpHead (udpHeaders c iphlen)).len
  len_le : ((udpHead (udpHeaders c iphlen)).len : ℤ) ≤ (udpHead (udpHeaders c iphlen)).ipLen.toInt
  sum : (udpHead (udpHeaders c iphlen)).uhSum = 0 ∨
    rfc1071 (cksumHead (udpHeaders c iphlen) ++ udpPayload c iphlen) = 0

/-- A socket buffer with one record more. -/
def SockBuf.withRecord (sb : SockBuf) (record : List Mbuf) : SockBuf :=
  { sb with toSbCount := record.foldl sballoc sb.toSbCount, sbMb := sb.sbMb ++ [record] }

/-- A socket buffer that takes an address, control data, and just the data. -/
def Takes (c : List (ClMbuf κ)) (iphlen : ℕ) (ctl : List Mbuf) (sb sb' : SockBuf) : Prop :=
  ∃ m data, m.mType = mtSONAME ∧ chainBytes data = udpPayload c iphlen ∧
    chainLen data + sizeofUdphdr = (udpHead (udpHeaders c iphlen)).len ∧
    sb' = sb.withRecord (m :: (ctl ++ data))

/-- Some of a list, up to the first one that does not share. -/
def untilUnshared (t : PcbTable ι) : List ι → List ι
  | [] => []
  | i :: rest => if (t.inp i).inpSocket.Shares then i :: untilUnshared t rest else [i]

/-- The blocks that a broadcast is for: those that match, up to one whose socket does not share its port. -/
def eligible (t : PcbTable ι) (h : UdpHead) : List ι :=
  untilUnshared t (t.chain.filter fun i => (t.inp i).CastMatch h)

variable [DecidableEq κ] [DecidableEq ι]

omit [DecidableEq κ] [DecidableEq ι] in
/-- A socket that is changed takes the data of a good datagram; a good datagram for everybody goes to each eligible
socket. -/
def RcvRight (e : UdpInEnv κ ι) (d : Demux ι) (c : List (ClMbuf κ)) (iphlen : ℕ) (rcv rcv' : ι → SockBuf) : Prop :=
  let h := udpHead (udpHeaders c iphlen)
  (∀ i, rcv' i ≠ rcv i → UdpValid c iphlen ∧
    Takes c iphlen (if h.IsCast e.rcvif then [] else udpOpts e h i) (rcv i) (rcv' i)) ∧
  (UdpValid c iphlen → h.IsCast e.rcvif → ∀ i,
    (i ∈ eligible d.table h → Takes c iphlen [] (rcv i) (rcv' i)) ∧ (i ∉ eligible d.table h → rcv' i = rcv i))

/-- `udp_input` returns, and no socket is wrong. -/
def UdpRight (e : UdpInEnv κ ι) (d : Demux ι) (rcv : ι → SockBuf) (udpIn : SockaddrIn) (c : List (ClMbuf κ))
    (iphlen : ℕ) : Prop :=
  ∃ r, udpInput e d rcv udpIn c iphlen = .ok r ∧ RcvRight e d c iphlen rcv r.rcv

omit [DecidableEq κ] [DecidableEq ι] in
/-- A buffer has room for an address, control data and what a packet's header says, and there is an mbuf. -/
def Room (sb : SockBuf) (asa : Sockaddr) (hdr : ℤ) (opts : List Mbuf) (mget : Bool) : Prop :=
  (BitVec.ofInt 32 (asa.1.length + hdr + chainLen opts)).toInt ≤ sbspace sb ∧ asa.1.length ≤ mLEN ∧ mget = true

omit [DecidableEq κ] in
/-- The mbufs that `m_copy` begins with: the first one with bytes. -/
def copyFrom : List (ClMbuf κ) → List (ClMbuf κ)
  | [] => []
  | m :: next => if m.mLen = 0 ∧ next ≠ [] then copyFrom next else m :: next

omit [DecidableEq κ] in
/-- A chain without the headers that the first mbuf has. -/
def behind (c : List (ClMbuf κ)) : List (ClMbuf κ) :=
  c.modifyHead fun m => { m with mData := m.mData + sizeofUdpiphdr, bytes := m.bytes.drop sizeofUdpiphdr }

/-- The bytes that are summed up have the checksum of the header, or it has none. -/
def SumTaken (hd : List Byte) (c : List (ClMbuf κ)) : Prop :=
  (udpHead hd).uhSum = 0 ∨
    rfc1071 ((clBytes (patch (cksumHead hd) c)).take ((udpHead hd).len + sizeofIp)) = 0

/-- A packet that is as long as its header says, for sockets that all have room; or one that is too short for a
header, for sockets without room. For all but the last one, an mbuf with a packet header is the first to be copied. -/
def CastFits (e : UdpInEnv κ ι) (d : Demux ι) (rcv : ι → SockBuf) (asa : Sockaddr) (h : UdpHead)
    (c : List (ClMbuf κ)) : Prop :=
  let E := eligible d.table h
  (∀ i ∈ E.dropLast, chainHdr (copyFrom (behind c)) ≠ none ∧ (copyFrom (behind c)).length ≤ e.copyMem i) ∧
    if sizeofUdphdr ≤ h.len then
      (clBytes c).length = h.len + sizeofIp ∧
        (∀ i ∈ E.dropLast, ∀ l ∈ chainHdr (copyFrom (behind c)), Room (rcv i) asa l [] (e.addrMem i)) ∧
        ∀ i ∈ E.getLast?, ∀ l ∈ chainHdr c, Room (rcv i) asa l [] (e.addrMem i)
    else
      (∀ i ∈ E.dropLast, ∀ l ∈ chainHdr (copyFrom (behind c)), ¬ Room (rcv i) asa l [] (e.addrMem i)) ∧
        ∀ i ∈ E.getLast?, ∀ l ∈ chainHdr c, ¬ Room (rcv i) asa l [] (e.addrMem i)

/-- The pointer to the block found last is not null; and if there is a block, the headers are there to be taken off,
and the packet is as long as its header says, or the socket has no room. -/
def UnicastFits (e : UdpInEnv κ ι) (d : Demux ι) (rcv : ι → SockBuf) (udpIn : SockaddrIn) (h : UdpHead)
    (c : List (ClMbuf κ)) : Prop :=
  ∃ r, d.findpcb h.ipSrc h.uhSport h.ipDst h.uhDport = some r ∧ ∀ x ∈ r.1, ∃ i, x = .pcb i ∧
    sizeofUdpiphdr ≤ (clBytes c).length ∧
    ∀ l ∈ chainHdr c, Room (rcv i) (udpIn.fromHead h).sockaddr (l - sizeofUdpiphdr) (udpOpts e h i) (e.addrMem i) →
      sizeofUdphdr ≤ h.len ∧ (clBytes c).length = h.len + sizeofIp

/-- A packet, cut to `uh_ulen`, has the bytes that are summed up, and if its checksum is taken it fits. -/
def TrimmedFits (e : UdpInEnv κ ι) (d : Demux ι) (rcv : ι → SockBuf) (udpIn : SockaddrIn) (hd : List Byte)
    (c : List (ClMbuf κ)) : Prop :=
  let h := udpHead hd
  (h.uhSum ≠ 0 → h.len + sizeofIp ≤ (clBytes c).length) ∧ (SumTaken hd c →
    if h.IsCast e.rcvif then
      sizeofUdpiphdr ≤ (clBytes c).length ∧
        (eligible d.table h ≠ [] → CastFits e d rcv (udpIn.fromCast h).sockaddr h c)
    else UnicastFits e d rcv udpIn h c)

/-- `m_pullup` leaves the headers, and what is left fits, unless `uh_ulen` is more than the packet has. -/
def UdpInputFits (e : UdpInEnv κ ι) (d : Demux ι) (rcv : ι → SockBuf) (udpIn : SockaddrIn) (c : List (ClMbuf κ))
    (iphlen : ℕ) : Prop :=
  ∃ c', udpPull e iphlen c = .ok c' ∧
    ∀ c'' ∈ udpTrim (udpHead (udpHeaders c iphlen)) c', TrimmedFits e d rcv udpIn (udpHeaders c iphlen) c''

end

section

variable {κ ι : Type*} {c d next : List (ClMbuf κ)} {m : ClMbuf κ} {iphlen : ℕ}

/-! ## The headers -/

theorem udpHead_cons (x y : Byte) (l : List Byte) : udpHead (x :: l) = udpHead (y :: l) := rfl

theorem cksumHead_cons (x y : Byte) (l : List Byte) : cksumHead (x :: l) = cksumHead (y :: l) := rfl

/-- The packet without options, but for its first byte. -/
def udpRest (c : List (ClMbuf κ)) (iphlen : ℕ) : List Byte := ((clBytes c).take sizeofIp).tail ++ udpData c iphlen

theorem UdpReceived.length (h : UdpReceived c iphlen) : iphlen ≤ (clBytes c).length := by
  obtain ⟨m, hm, hle⟩ := h.head
  cases c with
  | nil => cases hm
  | cons x next =>
      obtain rfl := Option.some.inj hm
      rw [length_clBytes_cons]
      omega

/-- `ip_stripoptions` takes out the options. -/
theorem stripped_bytes (h : UdpReceived (m :: next) iphlen) :
    ∃ v, clBytes ((if sizeofIp < iphlen then m.stripoptions else m) :: next) = v :: udpRest (m :: next) iphlen ∧
      (if sizeofIp < iphlen then m.stripoptions else m).mPkthdr ≠ none := by
  have hle : sizeofIp ≤ iphlen := h.le
  have hhdr : m.mPkthdr ≠ none := h.hdr
  obtain ⟨m', hm', hhead⟩ := h.head
  obtain rfl := Option.some.inj hm'
  have hsize : sizeofIp = 20 := rfl
  split_ifs with hopt
  · refine ⟨m.bytes.headD 0 &&& 0xf0 ||| 5, ?_, ?_⟩
    · have hfirst : (clBytes (m :: next)).headD 0 = m.bytes.headD 0 := by
        rw [clBytes_cons]
        cases hb : m.bytes with
        | nil =>
            rw [ClMbuf.mLen, hb, List.length_nil] at hhead
            omega
        | cons b l => rfl
      have holen : sizeofIp + (4 * (m.bytes.headD 0 &&& 0x0f).toNat - sizeofIp) = iphlen := by
        rw [← hfirst, ← h.hlen]
        omega
      rw [udpRest, udpData, clBytes_cons, clBytes_cons, ClMbuf.stripoptions]
      dsimp only
      rw [holen, List.take_append_of_le_length (by rw [← ClMbuf.mLen]; omega),
        List.drop_append_of_le_length hhead]
      simp only [List.cons_append, List.append_assoc]
    · rw [ClMbuf.stripoptions]
      simpa using hhdr
  · obtain rfl : iphlen = sizeofIp := by omega
    refine ⟨(clBytes (m :: next)).headD 0, ?_, hhdr⟩
    have hlen := h.length
    rw [udpRest, udpData, ← List.tail_append_of_ne_nil, List.take_append_drop]
    · cases hb : clBytes (m :: next) with
      | nil =>
          rw [hb, List.length_nil] at hlen
          omega
      | cons b l => rfl
    · intro hnil
      have := congrArg List.length hnil
      rw [List.length_take, List.length_nil] at this
      omega

/-- The headers of the packet with any first byte. -/
theorem udpHeaders_eq (h : UdpReceived c iphlen) :
    ∃ v, udpHeaders c iphlen = v :: (udpRest c iphlen).take 27 := by
  have hle : sizeofIp ≤ iphlen := h.le
  have hsize : sizeofIp = 20 := rfl
  have hlen := h.length
  have htake : ((clBytes c).take sizeofIp).length = 20 := by
    rw [List.length_take]
    omega
  cases hb : (clBytes c).take sizeofIp with
  | nil =>
      rw [hb, List.length_nil] at htake
      omega
  | cons b l =>
      rw [hb, List.length_cons] at htake
      refine ⟨b, ?_⟩
      rw [udpHeaders, udpRest, hb, List.tail_cons, List.take_append, List.take_of_length_le (l := l) (by omega),
        show 27 - l.length = sizeofUdphdr by rw [sizeofUdphdr]; omega]
      rfl

variable [DecidableEq κ] {e : UdpInEnv κ ι}

omit [DecidableEq κ] in
theorem length_udpHeaders (h : UdpReceived c iphlen) (hlen : sizeofUdpiphdr ≤ (udpRest c iphlen).length + 1) :
    (udpHeaders c iphlen).length = sizeofUdpiphdr := by
  obtain ⟨v, hv⟩ := udpHeaders_eq h
  rw [hv, List.length_cons, List.length_take]
  have : sizeofUdpiphdr = 28 := rfl
  omega

/-- A packet of which the first bytes are there, with the headers in the first mbuf. -/
structure UdpPulled (c : List (ClMbuf κ)) (iphlen : ℕ) (d : List (ClMbuf κ)) : Prop where
  bytes : ∃ v, clBytes d <+: v :: udpRest c iphlen
  head : ∃ m ∈ d.head?, sizeofUdpiphdr ≤ m.mLen
  hdr : chainHdr d ≠ none
  length : d.length ≤ c.length + 1

theorem udpPull_spec (h : UdpReceived c iphlen) (hpull : udpPull e iphlen c = .ok d) : UdpPulled c iphlen d := by
  cases c with
  | nil => cases hpull
  | cons m next =>
      obtain ⟨v, hbytes, hhdr⟩ := stripped_bytes h
      rw [udpPull] at hpull
      generalize (if sizeofIp < iphlen then m.stripoptions else m) = m' at hpull hbytes hhdr
      split_ifs at hpull with hshort
      · split at hpull
        · cases hpull
        · rename_i s hs
          split_ifs at hpull with hnil
          obtain rfl := Except.ok.inj hpull
          have hleft := mPullup_left hs (by decide) (by simp) hnil
          have hchain : MbufState.chain ⟨[m' :: next], e.clusters, []⟩ 0 = m' :: next := rfl
          rw [hchain] at hleft
          refine ⟨⟨v, hbytes ▸ hleft.bytes⟩, hleft.head, ?_, hleft.length⟩
          rw [hleft.hdr]
          exact hhdr
      · obtain rfl := Except.ok.inj hpull
        exact ⟨⟨v, hbytes ▸ List.prefix_rfl⟩, ⟨m', rfl, not_lt.mp hshort⟩, hhdr, Nat.le_succ _⟩

end

section

variable {κ ι : Type*} {c d next : List (ClMbuf κ)} {m : ClMbuf κ} {iphlen : ℕ} {h : UdpHead} {hd : List Byte}

/-! ## Cutting to the length -/

theorem mAdj_neg (x : Mbuf) (rest : List Mbuf) {r : ℤ} (hr : r < 0) :
    ∃ y rest', mAdj (x :: rest) r = y :: rest' ∧ y.bytes = x.bytes.take (chainLen (x :: rest) - (-r).toNat) ∧
      (y.mPkthdr = none ↔ x.mPkthdr = none) := by
  rw [mAdj]
  cases hlast : (x :: rest).getLast? with
  | none => cases List.getLast?_eq_none_iff.mp hlast
  | some last =>
      dsimp only
      rw [if_neg hr.not_ge]
      split_ifs with hle
      · cases rest with
        | nil =>
            obtain rfl : x = last := by simpa using hlast
            exact ⟨_, [], rfl, by simp [Mbuf.mLen], by simp⟩
        | cons z rest =>
            have hmem : last ∈ z :: rest := by
              rw [List.getLast?_cons_cons] at hlast
              exact List.mem_of_getLast? hlast
            have hsum : last.mLen ≤ chainLen (z :: rest) := by
              obtain ⟨a, b, hab⟩ := List.append_of_mem hmem
              rw [hab, chainLen_append, chainLen_cons]
              omega
            refine ⟨_, _, rfl, ?_, by simp⟩
            rw [List.take_of_length_le]
            rw [chainLen_cons, ← Mbuf.mLen]
            omega
      · rw [setPkthdr, mAdjCount]
        split_ifs with hcount
        · exact ⟨_, _, rfl, rfl, by simp⟩
        · refine ⟨_, _, rfl, ?_, by simp⟩
          rw [List.take_of_length_le]
          exact (not_le.mp hcount).le

theorem clBytes_mAdjCl (c : List (ClMbuf κ)) (r : ℤ) : clBytes (mAdjCl c r) = adjust (clBytes c) r := by
  have hlen : c.length = (mAdj (c.map ClMbuf.toMbuf) r).length := by rw [length_mAdj, List.length_map]
  rw [clBytes.eq_1 c, ← chainBytes_mAdj, mAdjCl]
  generalize mAdj (c.map ClMbuf.toMbuf) r = l at hlen
  induction c generalizing l with
  | nil =>
      rw [List.length_eq_zero_iff.mp hlen.symm]
      rfl
  | cons m c ih =>
      cases l with
      | nil => cases hlen
      | cons x l =>
          rw [List.zipWith_cons_cons, clBytes_cons, chainBytes_cons, ih l (Nat.succ.inj hlen)]

/-- The packet, cut; the headers are still in the first mbuf if there are so many bytes. -/
structure UdpTrimmed (c : List (ClMbuf κ)) (iphlen : ℕ) (d : List (ClMbuf κ)) : Prop where
  bytes : ∃ v, clBytes d <+: v :: udpRest c iphlen
  head : ∃ m ∈ d.head?, min sizeofUdpiphdr (clBytes d).length ≤ m.mLen
  hdr : chainHdr d ≠ none
  length : d.length ≤ c.length + 1
  enough : sizeofUdpiphdr ≤ (udpRest c iphlen).length + 1

theorem UdpPulled.enough [DecidableEq κ] (hp : UdpPulled c iphlen d) :
    sizeofUdpiphdr ≤ (udpRest c iphlen).length + 1 := by
  obtain ⟨v, hbytes⟩ := hp.bytes
  obtain ⟨m, hm, hhead⟩ := hp.head
  have hle := hbytes.length_le
  cases d with
  | nil => cases hm
  | cons x next =>
      obtain rfl := Option.some.inj hm
      rw [length_clBytes_cons, List.length_cons] at hle
      omega

theorem udpTrim_eq_none : udpTrim h d = none ↔ h.ipLen.toInt < h.len := by
  rw [udpTrim]
  split_ifs <;> simp <;> omega

theorem UdpPulled.trim [DecidableEq κ] (hp : UdpPulled c iphlen d) {d' : List (ClMbuf κ)} (htrim : d' ∈ udpTrim h d) :
    UdpTrimmed c iphlen d' := by
  obtain ⟨v, hbytes⟩ := hp.bytes
  obtain ⟨m, hm, hhead⟩ := hp.head
  rw [Option.mem_def, udpTrim] at htrim
  split_ifs at htrim with hne hgt
  · obtain rfl := Option.some.inj htrim
    cases d with
    | nil => cases hm
    | cons x next =>
        obtain rfl := Option.some.inj hm
        have hneg : (h.len : ℤ) - h.ipLen.toInt < 0 := by omega
        obtain ⟨y, rest', hadj, hy, hhdr⟩ := mAdj_neg x.toMbuf (next.map ClMbuf.toMbuf) hneg
        have hcut : mAdjCl (x :: next) (h.len - h.ipLen.toInt) =
            { x with mPkthdr := y.mPkthdr, mData := y.mData, bytes := y.bytes } ::
              List.zipWith (fun m x => { m with mPkthdr := x.mPkthdr, mData := x.mData, bytes := x.bytes }) next
                rest' := by
          rw [mAdjCl, List.map_cons, hadj, List.zipWith_cons_cons]
        have hall : clBytes (mAdjCl (x :: next) (h.len - h.ipLen.toInt)) = (clBytes (x :: next)).take
            ((clBytes (x :: next)).length - (-((h.len : ℤ) - h.ipLen.toInt)).toNat) := by
          rw [clBytes_mAdjCl, adjust, if_neg hneg.not_ge]
        have htotal : chainLen (x.toMbuf :: next.map ClMbuf.toMbuf) = (clBytes (x :: next)).length :=
          (length_chainBytes _).symm
        refine ⟨⟨v, ?_⟩, ?_, ?_, ?_, hp.enough⟩
        · rw [hall]
          exact (List.take_prefix _ _).trans hbytes
        · refine ⟨_, by rw [hcut]; rfl, ?_⟩
          rw [hall, List.length_take, ClMbuf.mLen, hy, List.length_take, htotal]
          have : x.toMbuf.bytes.length = x.mLen := rfl
          omega
        · rw [hcut]
          exact mt hhdr.mp hp.hdr
        · refine le_trans (le_of_eq ?_) hp.length
          rw [mAdjCl, List.length_zipWith, length_mAdj, List.length_map, Nat.min_self]
  · obtain rfl := Option.some.inj htrim
    exact ⟨hp.bytes, ⟨m, hm, by omega⟩, hp.hdr, hp.length, hp.enough⟩

theorem headBytes_eq [DecidableEq κ] (hp : UdpPulled c iphlen d) :
    ∃ v, headBytes d = v :: (udpRest c iphlen).take 27 := by
  obtain ⟨v, hbytes⟩ := hp.bytes
  obtain ⟨m, hm, hhead⟩ := hp.head
  cases d with
  | nil => cases hm
  | cons x next =>
      obtain rfl := Option.some.inj hm
      obtain ⟨rest, hrest⟩ := hbytes
      rw [clBytes_cons, List.append_assoc] at hrest
      refine ⟨v, ?_⟩
      have htake : x.bytes.take sizeofUdpiphdr = (x.bytes ++ (clBytes next ++ rest)).take sizeofUdpiphdr :=
        (List.take_append_of_le_length hhead).symm
      rw [headBytes, htake, hrest]
      rfl

/-- What `udp_input` reads in front of the chain are the headers of the packet. -/
theorem head_pulled [DecidableEq κ] (hc : UdpReceived c iphlen) (hp : UdpPulled c iphlen d) :
    udpHead (headBytes d) = udpHead (udpHeaders c iphlen) ∧
      cksumHead (headBytes d) = cksumHead (udpHeaders c iphlen) := by
  obtain ⟨v, hv⟩ := headBytes_eq hp
  obtain ⟨w, hw⟩ := udpHeaders_eq hc
  rw [hv, hw]
  exact ⟨udpHead_cons v w _, cksumHead_cons v w _⟩

/-! ## The checksum -/

theorem mLen_patch (l : List Byte) :
    ClMbuf.mLen { m with bytes := (l ++ m.bytes.drop l.length).take m.mLen } = m.mLen := by
  rw [ClMbuf.mLen, List.length_take, List.length_append, List.length_drop, ← ClMbuf.mLen]
  omega

theorem length_patch (l : List Byte) (c : List (ClMbuf κ)) : (clBytes (patch l c)).length = (clBytes c).length := by
  cases c with
  | nil => rfl
  | cons m next => rw [patch, length_clBytes_cons, length_clBytes_cons, mLen_patch]

theorem behind_patch {l : List Byte} (hl : l.length = sizeofUdpiphdr) (c : List (ClMbuf κ)) :
    behind (patch l c) = behind c := by
  cases c with
  | nil => rfl
  | cons m next =>
      have hdrop : ((l ++ m.bytes.drop l.length).take m.mLen).drop sizeofUdpiphdr = m.bytes.drop sizeofUdpiphdr := by
        rw [← hl, List.drop_take, List.drop_left, List.take_of_length_le]
        rw [List.length_drop, ← ClMbuf.mLen]
      simp only [behind, patch, List.modifyHead_cons, hdrop]

theorem udpStrip_patch (l : List Byte) (hl : l.length = sizeofUdpiphdr) (c : List (ClMbuf κ)) :
    udpStrip (patch l c) = udpStrip c := by
  have h := behind_patch hl c
  cases c with
  | nil => rfl
  | cons m next =>
      rw [patch, udpStrip, udpStrip, mLen_patch]
      refine if_congr Iff.rfl rfl ?_
      exact congrArg Except.ok h

/-- Headers that are long enough are taken off. -/
theorem UdpTrimmed.strip (ht : UdpTrimmed c iphlen d) :
    udpStrip d = if sizeofUdpiphdr ≤ (clBytes d).length then .ok (behind d) else .error .negative := by
  obtain ⟨m, hm, hhead⟩ := ht.head
  cases d with
  | nil => cases hm
  | cons x next =>
      obtain rfl := Option.some.inj hm
      have hle : x.mLen ≤ (clBytes (x :: next)).length := by
        rw [length_clBytes_cons]
        exact Nat.le_add_right _ _
      rw [udpStrip]
      by_cases hshort : sizeofUdpiphdr ≤ (clBytes (x :: next)).length
      · rw [if_pos hshort, if_neg (by omega)]
        rfl
      · rw [if_neg hshort, if_pos (by omega)]

theorem length_cksumHead (hlen : hd.length = sizeofUdpiphdr) : (cksumHead hd).length = sizeofUdpiphdr := by
  simp [cksumHead, hlen, sizeofUdpiphdr]

/-- The packet after the test, where its checksum is taken. -/
def summed (hd : List Byte) (c : List (ClMbuf κ)) : List (ClMbuf κ) :=
  if (udpHead hd).uhSum = 0 then c else patch ((cksumHead hd).take 26 ++ [0, 0]) (patch (cksumHead hd) c)

theorem swap_eq_zero_iff {x : BitVec 16} : (swap16 x).setWidth 32 = 0 ↔ x = 0 := by
  have hlt := x.isLt
  rw [BitVec.toNat_eq, BitVec.toNat_setWidth, toNat_swap16, BitVec.toNat_eq, Nat.mod_eq_of_lt (by omega),
    show (0 : BitVec 32).toNat = 0 from rfl, show (0 : BitVec 16).toNat = 0 from rfl]
  omega

open Classical in
/-- The checksum is right where there are bytes enough. -/
theorem udpCheck_eq (mtod : ClMbuf κ → BitVec 32) (hd : List Byte) (d : List (ClMbuf κ)) :
    udpCheck mtod hd d =
      if (udpHead hd).uhSum ≠ 0 ∧ (clBytes d).length < (udpHead hd).len + sizeofIp then .error .panic
      else .ok (if SumTaken hd d then some (summed hd d) else none) := by
  rw [udpCheck]
  by_cases hzero : (udpHead hd).uhSum = 0
  · rw [if_pos hzero, if_neg fun h => h.1 hzero, if_pos (.inl hzero), summed, if_pos hzero]
  · have hbytes : cksumBytes ((patch (cksumHead hd) d).map fun m => ⟨mtod m, m.bytes⟩) =
        clBytes (patch (cksumHead hd) d) := by
      rw [cksumBytes, List.flatMap_map, clBytes, chainBytes, List.flatMap_map]
      rfl
    have hcount := length_patch (cksumHead hd) d
    rw [if_neg hzero]
    dsimp only
    by_cases hshort : (clBytes d).length < (udpHead hd).len + sizeofIp
    · rw [if_pos ⟨hzero, hshort⟩, inCksum_short (by rw [hbytes]; omega)]
    · have hle : (udpHead hd).len + sizeofIp ≤ 130000 := by
        have hlt : (udpHead hd).len < 65536 := (swap16 (udpHead hd).uhUlen).isLt
        have hsize : sizeofIp = 20 := rfl
        omega
      have hright := cksumRight_of_fits (m := (patch (cksumHead hd) d).map fun m => ⟨mtod m, m.bytes⟩)
        (by rw [hbytes]; omega) (cksumFits_of_le hle)
      rw [CksumRight, hbytes] at hright
      rw [if_neg fun h => hshort h.2, hright]
      dsimp only
      generalize hsum : rfc1071 ((clBytes (patch (cksumHead hd) d)).take ((udpHead hd).len + sizeofIp)) = x
      have htaken : SumTaken hd d ↔ (swap16 x).setWidth 32 = 0 := by
        rw [SumTaken, or_iff_right hzero, hsum]
        exact swap_eq_zero_iff.symm
      rw [if_congr htaken rfl rfl, summed, if_neg hzero]

/-- The bytes behind the headers. -/
theorem UdpTrimmed.clBytes_behind (ht : UdpTrimmed c iphlen d) (hlong : sizeofUdpiphdr ≤ (clBytes d).length) :
    clBytes (behind d) = (clBytes d).drop sizeofUdpiphdr := by
  obtain ⟨m, hm, hhead⟩ := ht.head
  cases d with
  | nil => cases hm
  | cons x next =>
      obtain rfl := Option.some.inj hm
      rw [behind, List.modifyHead_cons, clBytes_cons, clBytes_cons, List.drop_append_of_le_length]
      rw [← ClMbuf.mLen]
      omega

/-- The bytes of the packet behind the headers. -/
theorem UdpTrimmed.drop_eq (hc : UdpReceived c iphlen) (ht : UdpTrimmed c iphlen d)
    (hlong : sizeofUdpiphdr ≤ (clBytes d).length) :
    ∃ rest, (clBytes d).drop sizeofUdpiphdr ++ rest = (udpData c iphlen).drop sizeofUdphdr := by
  obtain ⟨v, rest, hrest⟩ := ht.bytes
  have htail : ((clBytes c).take sizeofIp).tail.length = 19 := by
    have hle := hc.length
    have := hc.le
    rw [List.length_tail, List.length_take]
    have : sizeofIp = 20 := rfl
    omega
  refine ⟨rest, ?_⟩
  rw [← List.drop_append_of_le_length hlong, hrest, show sizeofUdpiphdr = 27 + 1 from rfl, List.drop_succ_cons,
    udpRest, List.drop_append, List.drop_of_length_le (by omega), htail]
  rfl

/-- What is summed up of a datagram with a header. -/
theorem sumTaken_iff (hc : UdpReceived c iphlen) (ht : UdpTrimmed c iphlen d)
    (hlen : sizeofUdphdr ≤ (udpHead (udpHeaders c iphlen)).len)
    (hall : (udpHead (udpHeaders c iphlen)).len + sizeofIp ≤ (clBytes d).length) :
    SumTaken (udpHeaders c iphlen) d ↔ (udpHead (udpHeaders c iphlen)).uhSum = 0 ∨
      rfc1071 (cksumHead (udpHeaders c iphlen) ++ udpPayload c iphlen) = 0 := by
  obtain ⟨m, hm, hhead⟩ := ht.head
  have hsize : sizeofUdpiphdr = sizeofIp + sizeofUdphdr := rfl
  have hlong : sizeofUdpiphdr ≤ (clBytes d).length := by omega
  obtain ⟨rest, hbehind⟩ := ht.drop_eq hc hlong
  have hhd := length_cksumHead (length_udpHeaders hc ht.enough)
  have hpatch : clBytes (patch (cksumHead (udpHeaders c iphlen)) d) =
      cksumHead (udpHeaders c iphlen) ++ (clBytes d).drop sizeofUdpiphdr := by
    cases d with
    | nil => cases hm
    | cons x next =>
        obtain rfl := Option.some.inj hm
        have hfirst : sizeofUdpiphdr ≤ x.bytes.length := by
          rw [← ClMbuf.mLen]
          omega
        rw [patch, clBytes_cons, clBytes_cons, List.drop_append_of_le_length hfirst, hhd, ← List.append_assoc,
          List.take_of_length_le]
        rw [List.length_append, List.length_drop, hhd, ← ClMbuf.mLen]
        exact (Nat.add_sub_cancel' hfirst).le
  rw [SumTaken, hpatch, udpPayload, List.drop_take, ← hbehind, List.take_append, hhd,
    List.take_of_length_le (by omega), List.take_append_of_le_length]
  · rw [hsize, show (udpHead (udpHeaders c iphlen)).len + sizeofIp - (sizeofIp + sizeofUdphdr) =
      (udpHead (udpHeaders c iphlen)).len - sizeofUdphdr by omega]
  · rw [List.length_drop]
    omega

end

end Shaunos.Net
