import Shaunos.Common.Run
import Shaunos.Net.PcbBind

/-!
# Connecting protocol control blocks

Reference: `Kernel/netinet/in_pcb.c` (`in_pcballoc`, `in_pcbdetach`, `in_pcbconnect`, `in_pcbdisconnect`),
`Kernel/netinet/udp_usrreq.c` (`udp_output`, `udp_usrreq`), `Kernel/netinet/tcp_usrreq.c` (`tcp_usrreq`),
`Kernel/netinet/tcp_input.c` (`tcp_input`: the new block of a passive open, and `TCPS_LISTEN`).

* `inPcbconnect_cases` — what a call of `in_pcbconnect` leaves behind;
* `TuplesUnique.call` — every call that does right keeps connections apart;
* `tuplesUnique_of_reach` — no two blocks get the same two addresses and ports.
-/

namespace Shaunos.Net

/-! ## The code -/

def iNADDR_BROADCAST : InAddr := 0xffffffff

/-- `struct in_ifaddr`, with the flags of its interface. -/
structure IfAddr where
  iaAddr : InAddr
  iaBroadaddr : InAddr
  /-- `IFF_BROADCAST` -/
  ifBroadcast : Bool

/-- What `in_pcbconnect` learns from interfaces, routes and the block's options. -/
structure ConnectEnv where
  /-- `in_ifaddr` -/
  inIfaddr : Option IfAddr
  ifaIfwithaddr : SockaddrIn → Bool
  /-- `ro->ro_rt` for a destination: whether its interface has `IFF_LOOPBACK`, and `rt_ifa`. -/
  roRt : InAddr → Option (Bool × IfAddr)
  ifaIfwithdstaddr : SockaddrIn → Option IfAddr
  ifaIfwithnet : SockaddrIn → Option IfAddr
  /-- If `imo_multicast_ifp` is there: the first address of that interface. -/
  imoMulticast : Option (Option IfAddr)
  /-- The word that the unset `sin` of `in_pcbbind` leads to. -/
  stray : Option InAddr

namespace ConnectEnv

variable (e : ConnectEnv)

/-- `sin->sin_addr`, once a wildcard or a broadcast address is replaced. -/
def dst (sinAddr : InAddr) : InAddr :=
  match e.inIfaddr with
  | none => sinAddr
  | some ia =>
      if sinAddr = iNADDR_ANY then ia.iaAddr
      else if sinAddr = iNADDR_BROADCAST ∧ ia.ifBroadcast = true then ia.iaBroadaddr
      else sinAddr

/-- `ia`, from the route or else from the interfaces. -/
def ia (sin : SockaddrIn) : Option IfAddr :=
  match e.roRt sin.sinAddr with
  | some (false, rtIfa) => some rtIfa
  | _ =>
      let sin := { sin with sinPort := 0 }
      (e.ifaIfwithdstaddr sin).or ((e.ifaIfwithnet sin).or e.inIfaddr)

/-- `ifaddr->sin_addr`; `none` for the error. -/
def ifaddr (sin : SockaddrIn) : Option InAddr :=
  match e.ia sin, inMulticast (swab32 sin.sinAddr), e.imoMulticast with
  | none, _, _ => none
  | some _, true, some ia => ia.map IfAddr.iaAddr
  | some ia, _, _ => some ia.iaAddr

end ConnectEnv

/-- A new block, for a socket. -/
def Inpcb.new (so : PcbSocket) : Inpcb := ⟨iNADDR_ANY, 0, iNADDR_ANY, 0, so⟩

namespace PcbTable

variable {ι : Type*} [DecidableEq ι] (t : PcbTable ι)

def setForeign (i : ι) (faddr : InAddr) (fport : BitVec 16) : PcbTable ι :=
  t.modify i fun p => { p with inpFaddr := faddr, inpFport := fport }

/-- `in_pcballoc`, with memory for the block `i`. -/
def inPcballoc (i : ι) (so : PcbSocket) : PcbTable ι :=
  { t with chain := i :: t.chain, inp := Function.update t.inp i (Inpcb.new so) }

/-- `in_pcbdetach`, as far as the table goes. -/
def inPcbdetach (i : ι) : PcbTable ι := { t with chain := t.chain.filter (· ≠ i) }

def inPcbdisconnect (i : ι) : PcbTable ι :=
  let t := t.setForeign i iNADDR_ANY 0
  if (t.inp i).inpSocket.ssNofdref then t.inPcbdetach i else t

/-- `in_pcbconnect`; `none` where `in_pcbbind` does not return. -/
def inPcbconnect (e : ConnectEnv) (i : ι) (nam : Nam) : Option (ℤ × PcbTable ι) :=
  let inp := t.inp i
  if nam.mLen ≠ 16 then some (-eINVAL, t)
  else if nam.sin.sinFamily ≠ aF_INET then some (-eAFNOSUPPORT, t)
  else if nam.sin.sinPort = 0 then some (-eADDRNOTAVAIL, t)
  else
    let sin := { nam.sin with sinAddr := e.dst nam.sin.sinAddr }
    let local? := if inp.inpLaddr = iNADDR_ANY then e.ifaddr sin else some inp.inpLaddr
    match local? with
    | none => some (-eADDRNOTAVAIL, t)
    | some laddr =>
        if (t.inPcblookup sin.sinAddr (sin.sinPort.setWidth 32) laddr (inp.inpLport.setWidth 32) 0).isSome then
          some (-eADDRINUSE, t)
        else
          let bound :=
            if inp.inpLaddr = iNADDR_ANY then
              let bound :=
                if inp.inpLport = 0 then
                  (t.inPcbbind ⟨e.inIfaddr.isSome, e.ifaIfwithaddr⟩ e.stray i none).map Prod.snd
                else some t
              bound.map fun t => t.setLaddr i laddr
            else some t
          bound.map fun t => (0, t.setForeign i sin.sinAddr sin.sinPort)

/-- `tcp_input` in `TCPS_LISTEN`, for a segment to `tiDst`: the block takes the address and is connected to `am`. -/
def listenConnect (e : ConnectEnv) (i : ι) (tiDst : InAddr) (am : Nam) : Option (ℤ × PcbTable ι) :=
  let laddr := (t.inp i).inpLaddr
  let t := if laddr = iNADDR_ANY then t.setLaddr i tiDst else t
  (t.inPcbconnect e i am).map fun r => if r.1 ≠ 0 then (r.1, r.2.setLaddr i laddr) else r

end PcbTable

/-- What happens to the blocks of a table.

UDP: `PRU_CONNECT` is `connect` and `PRU_DISCONNECT` is `release` with `INADDR_ANY`; a datagram that is sent to an
address is `connect`, and `release` with the address from before unless there is no mbuf.
TCP: `PRU_LISTEN` is `bind` without a name; `PRU_CONNECT` is `bind` without a name for a block without a port,
`connect`, and `disconnect` when there is no template; a new connection is `accept` and `listen`. -/
inductive PcbCall (ι : Type*) where
  /-- `in_pcballoc`. -/
  | attach (i : ι) (so : PcbSocket)
  /-- The options or the state of the socket are set. -/
  | socket (i : ι) (so : PcbSocket)
  /-- `in_pcbbind`. -/
  | bind (ifs : Interfaces) (stray : Option InAddr) (i : ι) (nam : Option Nam)
  /-- `in_pcbconnect`. -/
  | connect (e : ConnectEnv) (i : ι) (nam : Nam)
  /-- `in_pcbdisconnect`. -/
  | disconnect (i : ι)
  /-- `in_pcbdisconnect`, and `inp_laddr` is set. -/
  | release (i : ι) (laddr : InAddr)
  /-- `sonewconn`: a block for the segment's destination. -/
  | accept (i : ι) (so : PcbSocket) (tiDst : InAddr) (tiDport : BitVec 16)
  /-- The case `TCPS_LISTEN`. -/
  | listen (e : ConnectEnv) (i : ι) (tiDst : InAddr) (am : Nam)
  /-- `in_pcbdetach`. -/
  | detach (i : ι)

namespace PcbTable

variable {ι : Type*} [DecidableEq ι]

/-- The block is in the table. -/
def within (t : PcbTable ι) (i : ι) (r : Option (PcbTable ι)) : Option (PcbTable ι) := if i ∈ t.chain then r else none

theorem within_eq_some {t u : PcbTable ι} {i : ι} {r : Option (PcbTable ι)} :
    t.within i r = some u ↔ i ∈ t.chain ∧ r = some u := by
  rw [within]
  split_ifs with h
  · simp [h]
  · simp [h]

/-- One call. -/
def step (t : PcbTable ι) : PcbCall ι → Option (PcbTable ι)
  | .attach i so => if i ∈ t.chain then none else some (t.inPcballoc i so)
  | .socket i so => t.within i (some (t.modify i fun p => { p with inpSocket := so }))
  | .bind ifs stray i nam => t.within i ((t.inPcbbind ifs stray i nam).map Prod.snd)
  | .connect e i nam => t.within i ((t.inPcbconnect e i nam).map Prod.snd)
  | .disconnect i => t.within i (some (t.inPcbdisconnect i))
  | .release i laddr => t.within i (some ((t.inPcbdisconnect i).setLaddr i laddr))
  | .accept i so tiDst tiDport =>
      if i ∈ t.chain then none else some (((t.inPcballoc i so).setLaddr i tiDst).setLport i tiDport)
  | .listen e i tiDst am => t.within i ((t.listenConnect e i tiDst am).map Prod.snd)
  | .detach i => t.within i (some (t.inPcbdetach i))

/-- A table without blocks. -/
def init (headLport : BitVec 16) (inp : ι → Inpcb) : PcbTable ι := ⟨headLport, [], inp⟩

end PcbTable

/-! ## What should hold -/

/-- Both addresses and both ports are the same. -/
def Inpcb.SameTuple (p q : Inpcb) : Prop :=
  p.inpLaddr = q.inpLaddr ∧ p.inpLport = q.inpLport ∧ p.inpFaddr = q.inpFaddr ∧ p.inpFport = q.inpFport

/-- Neither an address nor a port is open. -/
def Inpcb.FullySpecified (p : Inpcb) : Prop :=
  p.inpLaddr ≠ iNADDR_ANY ∧ p.inpLport ≠ 0 ∧ p.inpFaddr ≠ iNADDR_ANY ∧ p.inpFport ≠ 0

/-- The block has neither a port nor an address of its own. -/
def Inpcb.Unbound (p : Inpcb) : Prop := p.inpLport = 0 ∧ p.inpLaddr = iNADDR_ANY

instance (p q : Inpcb) : Decidable (p.SameTuple q) := inferInstanceAs (Decidable (_ ∧ _))
instance (p : Inpcb) : Decidable p.FullySpecified := inferInstanceAs (Decidable (_ ∧ _))
instance (p : Inpcb) : Decidable p.Unbound := inferInstanceAs (Decidable (_ ∧ _))

namespace PcbTable

variable {ι : Type*}

/-- No two blocks have the same fully specified addresses and ports. -/
def ConnectionsApart (t : PcbTable ι) : Prop :=
  ∀ i ∈ t.chain, ∀ j ∈ t.chain, i ≠ j → (t.inp i).FullySpecified → ¬ (t.inp i).SameTuple (t.inp j)

/-- The same of all blocks that have a foreign address. -/
def TuplesUnique (t : PcbTable ι) : Prop :=
  ∀ i ∈ t.chain, ∀ j ∈ t.chain, i ≠ j → (t.inp i).inpFaddr ≠ iNADDR_ANY → ¬ (t.inp i).SameTuple (t.inp j)

instance [DecidableEq ι] (t : PcbTable ι) : Decidable t.ConnectionsApart :=
  inferInstanceAs (Decidable (∀ i ∈ t.chain, ∀ j ∈ t.chain, i ≠ j → (t.inp i).FullySpecified → ¬ _))

theorem TuplesUnique.connectionsApart {t : PcbTable ι} (h : t.TuplesUnique) : t.ConnectionsApart :=
  fun i hi j hj hne hfull => h i hi j hj hne hfull.2.2.1

/-- The name, with the address that `in_pcbconnect` puts into it. -/
def connectName (e : ConnectEnv) (nam : Nam) : SockaddrIn := { nam.sin with sinAddr := e.dst nam.sin.sinAddr }

/-- The address that a block is connected from. -/
def connectLaddr (t : PcbTable ι) (e : ConnectEnv) (i : ι) (nam : Nam) : Option InAddr :=
  if (t.inp i).inpLaddr = iNADDR_ANY then e.ifaddr (connectName e nam) else some (t.inp i).inpLaddr

/-- The name is a good one, there is a way to it, and no block has it with this address and port. -/
def Connects (t : PcbTable ι) (e : ConnectEnv) (i : ι) (nam : Nam) : Prop :=
  nam.mLen = 16 ∧ nam.sin.sinFamily = aF_INET ∧ nam.sin.sinPort ≠ 0 ∧
    ∃ laddr ∈ t.connectLaddr e i nam, t.inPcblookup (connectName e nam).sinAddr
      ((connectName e nam).sinPort.setWidth 32) laddr ((t.inp i).inpLport.setWidth 32) 0 = none

variable [DecidableEq ι]

/-- A block without port and address is connected only if no other block is connected from the same address to the same
port, or else the search for a port sees all blocks that have this address. -/
def ConnectOk (t : PcbTable ι) (e : ConnectEnv) (i : ι) (nam : Nam) : Prop :=
  (t.inp i).Unbound → ∀ laddr ∈ e.ifaddr { nam.sin with sinAddr := e.dst nam.sin.sinAddr },
    (∃ j ∈ t.chain, j ≠ i ∧ (t.inp j).inpLaddr = laddr ∧ (t.inp j).inpFaddr = e.dst nam.sin.sinAddr ∧
      (t.inp j).inpFport = nam.sin.sinPort) →
    (t.inp i).inpSocket.wild = iNPLOOKUP_WILDCARD ∧ ∀ a ∈ e.stray, a = iNADDR_ANY ∨ a = laddr

instance (t : PcbTable ι) (e : ConnectEnv) (i : ι) (nam : Nam) : Decidable (t.ConnectOk e i nam) :=
  have (laddr : InAddr) : Decidable (∀ a ∈ e.stray, a = iNADDR_ANY ∨ a = laddr) := Option.decidableForallMem _
  have : Decidable (∀ laddr ∈ e.ifaddr { nam.sin with sinAddr := e.dst nam.sin.sinAddr },
      (∃ j ∈ t.chain, j ≠ i ∧ (t.inp j).inpLaddr = laddr ∧ (t.inp j).inpFaddr = e.dst nam.sin.sinAddr ∧
        (t.inp j).inpFport = nam.sin.sinPort) →
      (t.inp i).inpSocket.wild = iNPLOOKUP_WILDCARD ∧ ∀ a ∈ e.stray, a = iNADDR_ANY ∨ a = laddr) :=
    Option.decidableForallMem _
  inferInstanceAs (Decidable ((t.inp i).Unbound → _))

/-- What a call has to meet. -/
def CallOk (t : PcbTable ι) : PcbCall ι → Prop
  | .bind _ _ i _ => (t.inp i).Unbound → (t.inp i).inpFaddr = iNADDR_ANY
  | .connect e i nam => t.ConnectOk e i nam
  | .listen e i tiDst am =>
      (t.inp i).inpFaddr = iNADDR_ANY ∧
        (if (t.inp i).inpLaddr = iNADDR_ANY then t.setLaddr i tiDst else t).ConnectOk e i am
  | _ => True

instance (t : PcbTable ι) : (c : PcbCall ι) → Decidable (t.CallOk c)
  | .bind _ _ i _ => inferInstanceAs (Decidable ((t.inp i).Unbound → (t.inp i).inpFaddr = iNADDR_ANY))
  | .connect e i nam => inferInstanceAs (Decidable (t.ConnectOk e i nam))
  | .listen _ i _ _ => inferInstanceAs (Decidable ((t.inp i).inpFaddr = iNADDR_ANY ∧ _))
  | .attach .. | .socket .. | .disconnect _ | .release .. | .accept .. | .detach _ => isTrue trivial

end PcbTable

/-! ## What `in_pcbconnect` leaves behind -/

namespace PcbTable

variable {ι : Type*} [DecidableEq ι] {t u : PcbTable ι} {e : ConnectEnv} {i : ι} {nam : Nam}

/-- The port that the block is connected with: its own, or one that was searched for. -/
def PortFrom (t : PcbTable ι) (e : ConnectEnv) (i : ι) (sin : SockaddrIn) (laddr : InAddr) (lport : BitVec 16) : Prop :=
  lport = (t.inp i).inpLport ∨
    (t.inp i).Unbound ∧ e.ifaddr sin = some laddr ∧ ∃ a ∈ e.stray,
      (t.setLaddr i a).PortUsed a (t.inp i).inpSocket.wild 0 → ¬ t.PortUsed a (t.inp i).inpSocket.wild lport

/-- The local part: an address and a port for a block that has none. -/
theorem connectBound_cases {ifs : Interfaces} {sin : SockaddrIn} {laddr : InAddr}
    (hlocal : (if (t.inp i).inpLaddr = iNADDR_ANY then e.ifaddr sin else some (t.inp i).inpLaddr) = some laddr)
    (h : (if (t.inp i).inpLaddr = iNADDR_ANY then
        (if (t.inp i).inpLport = 0 then (t.inPcbbind ifs e.stray i none).map Prod.snd else some t).map
          fun t => t.setLaddr i laddr
      else some t) = some u) :
    ∃ lport, u.chain = t.chain ∧
      u.inp = Function.update t.inp i { t.inp i with inpLaddr := laddr, inpLport := lport } ∧
      t.PortFrom e i sin laddr lport := by
  by_cases hany : (t.inp i).inpLaddr = iNADDR_ANY
  · rw [if_pos hany] at h hlocal
    obtain ⟨v, hv, rfl⟩ := Option.map_eq_some_iff.mp h
    by_cases hzero : (t.inp i).inpLport = 0
    · rw [if_pos hzero] at hv
      obtain ⟨⟨c, w⟩, hbind, rfl⟩ := Option.map_eq_some_iff.mp hv
      rcases inPcbbind_cases hbind with ⟨-, rfl⟩ | ⟨-, a, lport, ha, -, -, hchain, hinp, hfree⟩
      · exact ⟨(w.inp i).inpLport, rfl, rfl, .inl rfl⟩
      · refine ⟨lport, hchain, ?_, .inr ⟨⟨hzero, hany⟩, hlocal, a, ha, fun hself => (hfree rfl hself).2⟩⟩
        simp [setLaddr, modify, hinp]
    · rw [if_neg hzero] at hv
      obtain rfl := Option.some.inj hv
      exact ⟨(t.inp i).inpLport, rfl, rfl, .inl rfl⟩
  · rw [if_neg hany] at h hlocal
    obtain rfl := Option.some.inj h
    obtain rfl := Option.some.inj hlocal
    exact ⟨(t.inp i).inpLport, rfl, (Function.update_eq_self i t.inp).symm, .inl rfl⟩

/-- Either nothing is changed, or the block is connected and no other one was, from the same address and the port that
it had. -/
theorem inPcbconnect_cases {c : ℤ} (h : t.inPcbconnect e i nam = some (c, u)) :
    c ≠ 0 ∧ u = t ∨ c = 0 ∧ ∃ laddr lport, u.chain = t.chain ∧
      u.inp = Function.update t.inp i
        { t.inp i with
          inpFaddr := e.dst nam.sin.sinAddr, inpFport := nam.sin.sinPort, inpLaddr := laddr, inpLport := lport } ∧
      (∀ j ∈ t.chain, ¬ (t.inp j).Candidate (e.dst nam.sin.sinAddr) nam.sin.sinPort laddr (t.inp i).inpLport 0) ∧
      t.PortFrom e i { nam.sin with sinAddr := e.dst nam.sin.sinAddr } laddr lport := by
  have failed : ∀ {e : ℤ}, some (-e, t) = some (c, u) → -e ≠ 0 → c ≠ 0 ∧ u = t := by
    rintro e heq hne
    obtain ⟨rfl, rfl⟩ := Prod.ext_iff.mp (Option.some.inj heq)
    exact ⟨hne, rfl⟩
  rw [inPcbconnect] at h
  simp only at h
  by_cases hlen : nam.mLen ≠ 16
  · rw [if_pos hlen] at h
    exact .inl (failed h (by decide))
  rw [if_neg hlen] at h
  by_cases hfam : nam.sin.sinFamily ≠ aF_INET
  · rw [if_pos hfam] at h
    exact .inl (failed h (by decide))
  rw [if_neg hfam] at h
  by_cases hport : nam.sin.sinPort = 0
  · rw [if_pos hport] at h
    exact .inl (failed h (by decide))
  rw [if_neg hport] at h
  generalize hlocal : (if (t.inp i).inpLaddr = iNADDR_ANY then
    e.ifaddr { nam.sin with sinAddr := e.dst nam.sin.sinAddr } else some (t.inp i).inpLaddr) = local? at h
  cases local? with
  | none => exact .inl (failed h (by decide))
  | some laddr =>
      simp only at h
      by_cases hused : (t.inPcblookup (e.dst nam.sin.sinAddr) (nam.sin.sinPort.setWidth 32) laddr
          ((t.inp i).inpLport.setWidth 32) 0).isSome = true
      · rw [if_pos hused] at h
        exact .inl (failed h (by decide))
      · rw [if_neg hused] at h
        obtain ⟨v, hv, hvu⟩ := Option.map_eq_some_iff.mp h
        obtain ⟨rfl, rfl⟩ := Prod.ext_iff.mp hvu
        obtain ⟨lport, hchain, hinp, hfrom⟩ := connectBound_cases hlocal hv
        refine .inr ⟨rfl, laddr, lport, hchain, ?_, ?_, hfrom⟩
        · simp [setForeign, modify, hinp]
        · have hnone := inPcblookup_eq_none.mp (Option.not_isSome_iff_eq_none.mp hused)
          simpa only [BitVec.setWidth_setWidth_of_le _ (show 16 ≤ 32 by decide), BitVec.setWidth_eq] using hnone

/-- The local address of a connection is the one that is looked up. -/
theorem connectLaddr_of_connectBound {ifs : Interfaces} {laddr : InAddr} (hlocal : t.connectLaddr e i nam = some laddr)
    (h : (if (t.inp i).inpLaddr = iNADDR_ANY then
        (if (t.inp i).inpLport = 0 then (t.inPcbbind ifs e.stray i none).map Prod.snd else some t).map
          fun t => t.setLaddr i laddr
      else some t) = some u) : (u.inp i).inpLaddr = laddr := by
  obtain ⟨lport, -, hinp, -⟩ := connectBound_cases hlocal h
  rw [hinp, Function.update_self]

theorem inPcbconnect_of_connects (h : t.Connects e i nam) : ∃ laddr ∈ t.connectLaddr e i nam,
    t.inPcbconnect e i nam = ((if (t.inp i).inpLaddr = iNADDR_ANY then
        (if (t.inp i).inpLport = 0 then
            (t.inPcbbind ⟨e.inIfaddr.isSome, e.ifaIfwithaddr⟩ e.stray i none).map Prod.snd
          else some t).map fun t => t.setLaddr i laddr
      else some t).map fun t => (0, t.setForeign i (e.dst nam.sin.sinAddr) nam.sin.sinPort)) := by
  obtain ⟨hlen, hfam, hport, laddr, hlocal, hfree⟩ := h
  refine ⟨laddr, hlocal, ?_⟩
  rw [connectLaddr, connectName, Option.mem_def] at hlocal
  rw [connectName] at hfree
  rw [inPcbconnect, if_neg (not_not.mpr hlen), if_neg (not_not.mpr hfam), if_neg hport]
  simp only [hlocal, hfree, Option.isSome_none, Bool.false_eq_true, ite_false]

theorem inPcbconnect_of_not_connects (h : ¬ t.Connects e i nam) :
    ∃ c ≠ 0, t.inPcbconnect e i nam = some (c, t) := by
  by_cases hlen : nam.mLen = 16
  swap
  · exact ⟨-eINVAL, by decide, by rw [inPcbconnect, if_pos hlen]⟩
  by_cases hfam : nam.sin.sinFamily = aF_INET
  swap
  · exact ⟨-eAFNOSUPPORT, by decide, by rw [inPcbconnect, if_neg (not_not.mpr hlen), if_pos hfam]⟩
  by_cases hport : nam.sin.sinPort = 0
  · refine ⟨-eADDRNOTAVAIL, by decide, ?_⟩
    rw [inPcbconnect, if_neg (not_not.mpr hlen), if_neg (not_not.mpr hfam), if_pos hport]
  rw [inPcbconnect, if_neg (not_not.mpr hlen), if_neg (not_not.mpr hfam), if_neg hport]
  cases hlocal : t.connectLaddr e i nam with
  | none =>
      refine ⟨-eADDRNOTAVAIL, by decide, ?_⟩
      rw [connectLaddr, connectName] at hlocal
      simp only [hlocal]
  | some laddr =>
      refine ⟨-eADDRINUSE, by decide, ?_⟩
      have hused : (t.inPcblookup (e.dst nam.sin.sinAddr) (nam.sin.sinPort.setWidth 32) laddr
          ((t.inp i).inpLport.setWidth 32) 0).isSome = true := by
        refine Option.isSome_iff_ne_none.mpr fun hnone => h ⟨hlen, hfam, hport, laddr, hlocal, hnone⟩
      rw [connectLaddr, connectName] at hlocal
      simp only [hlocal, hused, ite_true]

/-- A call that returns has taken the name just when it could. -/
theorem inPcbconnect_eq_zero_iff {c : ℤ} (h : t.inPcbconnect e i nam = some (c, u)) : c = 0 ↔ t.Connects e i nam := by
  constructor
  · intro hc
    by_contra hnot
    obtain ⟨c', hne, hfail⟩ := inPcbconnect_of_not_connects hnot
    obtain ⟨rfl, -⟩ := Prod.ext_iff.mp (Option.some.inj (h.symm.trans hfail))
    exact hne hc
  · intro hconn
    obtain ⟨laddr, -, heq⟩ := inPcbconnect_of_connects hconn
    obtain ⟨v, -, hv⟩ := Option.map_eq_some_iff.mp (heq.symm.trans h)
    exact (Prod.ext_iff.mp hv).1.symm

/-! ## Connections stay apart -/

/-- With one block changed: it has no foreign address, or no other block has its addresses and ports. -/
theorem TuplesUnique.of_one (h : t.TuplesUnique) (hchain : ∀ j ∈ u.chain, j ≠ i → j ∈ t.chain ∧ u.inp j = t.inp j)
    (hi : (u.inp i).inpFaddr ≠ iNADDR_ANY → ∀ j ∈ t.chain, j ≠ i → ¬ (u.inp i).SameTuple (t.inp j)) :
    u.TuplesUnique := by
  intro j hj k hk hne hfaddr hsame
  by_cases hji : j = i
  · subst hji
    obtain ⟨hkt, hkinp⟩ := hchain k hk (Ne.symm hne)
    exact hi hfaddr k hkt (Ne.symm hne) (hkinp ▸ hsame)
  · obtain ⟨hjt, hjinp⟩ := hchain j hj hji
    rw [hjinp] at hfaddr hsame
    by_cases hki : k = i
    · subst hki
      obtain ⟨hl, hp, hf, hq⟩ := hsame
      exact hi (hf ▸ hfaddr) j hjt hji ⟨hl.symm, hp.symm, hf.symm, hq.symm⟩
    · obtain ⟨hkt, hkinp⟩ := hchain k hk hki
      exact h j hjt k hkt hne hfaddr (hkinp ▸ hsame)

/-- The same, where the change leaves the block without a foreign address. -/
theorem TuplesUnique.of_any (h : t.TuplesUnique) (hchain : ∀ j ∈ u.chain, j ≠ i → j ∈ t.chain ∧ u.inp j = t.inp j)
    (hi : (u.inp i).inpFaddr = iNADDR_ANY) : u.TuplesUnique :=
  h.of_one hchain fun hne => absurd hi hne

theorem TuplesUnique.modify (h : t.TuplesUnique) {f : Inpcb → Inpcb} (hf : (f (t.inp i)).inpFaddr = iNADDR_ANY) :
    (t.modify i f).TuplesUnique :=
  h.of_any (i := i) (fun _ hj hne => ⟨hj, modify_inp_of_ne hne⟩) (by rwa [modify_inp_self])

/-- A search that sees all blocks with the address finds a port that none of them has. -/
theorem not_sameTuple_of_portFrom {sin : SockaddrIn} {laddr : InAddr} {lport : BitVec 16} {j : ι} (hi : i ∈ t.chain)
    (hj : j ∈ t.chain) (hwild : (t.inp i).inpSocket.wild = iNPLOOKUP_WILDCARD)
    (hstray : ∀ a ∈ e.stray, a = iNADDR_ANY ∨ a = laddr)
    (hfrom : t.PortFrom e i sin laddr lport) (hown : lport ≠ (t.inp i).inpLport)
    (hladdr : (t.inp j).inpLaddr = laddr) : (t.inp j).inpLport ≠ lport := by
  intro hlport
  obtain ⟨⟨hport, -⟩, -, a, ha, hfree⟩ := hfrom.resolve_left hown
  rw [hwild] at hfree
  have hflag : iNPLOOKUP_WILDCARD &&& iNPLOOKUP_WILDCARD ≠ 0 := by decide
  refine hfree ⟨i, hi, (Inpcb.candidate_of_wildcard hflag).mpr ?_⟩
    ⟨j, hj, (Inpcb.candidate_of_wildcard hflag).mpr ⟨hlport, ?_, fun _ hany => absurd rfl hany⟩⟩
  · rw [setLaddr_inp_self]
    exact ⟨hport, fun _ _ => rfl, fun _ hany => absurd rfl hany⟩
  · rintro - hany
    rw [hladdr, (hstray a ha).resolve_left hany]

theorem TuplesUnique.connect {c : ℤ} (h : t.TuplesUnique) (hi : i ∈ t.chain) (hok : t.ConnectOk e i nam)
    (hres : t.inPcbconnect e i nam = some (c, u)) : u.TuplesUnique := by
  rcases inPcbconnect_cases hres with ⟨-, rfl⟩ | ⟨-, laddr, lport, hchain, hinp, hnone, hfrom⟩
  · exact h
  refine h.of_one (i := i) (fun j hj hne => ?_) fun hfaddr j hj hne hsame => ?_
  · rw [hinp, Function.update_of_ne hne]
    exact ⟨hchain ▸ hj, rfl⟩
  · rw [hinp, Function.update_self] at hsame hfaddr
    obtain ⟨hl, hp, hf, hq⟩ := hsame
    by_cases hown : lport = (t.inp i).inpLport
    · refine hnone j hj ((Inpcb.candidate_exact (by decide)).mpr ⟨?_, hl.symm, hf.symm, fun _ => hq.symm⟩)
      rw [← hown]
      exact hp.symm
    · obtain ⟨hunbound, hladdr, -⟩ := hfrom.resolve_left hown
      obtain ⟨hwild, hstray⟩ := hok hunbound laddr hladdr ⟨j, hj, hne, hl.symm, hf.symm, hq.symm⟩
      exact not_sameTuple_of_portFrom hi hj hwild hstray hfrom hown hl.symm hp.symm

theorem TuplesUnique.disconnect (h : t.TuplesUnique) : (t.inPcbdisconnect i).TuplesUnique := by
  have hset : (t.setForeign i iNADDR_ANY 0).TuplesUnique := h.modify rfl
  rw [inPcbdisconnect]
  split_ifs
  · exact fun j hj k hk => hset j (List.mem_filter.mp hj).1 k (List.mem_filter.mp hk).1
  · exact hset

theorem inPcbdisconnect_inp : (t.inPcbdisconnect i).inp = (t.setForeign i iNADDR_ANY 0).inp := by
  rw [inPcbdisconnect]
  split_ifs <;> rfl

theorem inPcbdisconnect_self :
    (t.inPcbdisconnect i).inp i = { t.inp i with inpFaddr := iNADDR_ANY, inpFport := 0 } := by
  rw [inPcbdisconnect_inp, setForeign, modify_inp_self]

theorem inPcbdisconnect_faddr : ((t.inPcbdisconnect i).inp i).inpFaddr = iNADDR_ANY := by rw [inPcbdisconnect_self]

theorem TuplesUnique.alloc (h : t.TuplesUnique) (so : PcbSocket) : (t.inPcballoc i so).TuplesUnique := by
  refine h.of_any (i := i) (fun j hj hne => ?_) ?_
  · exact ⟨(List.mem_cons.mp hj).resolve_left hne, Function.update_of_ne hne _ _⟩
  · simp [inPcballoc, Inpcb.new]

theorem TuplesUnique.bind {ifs : Interfaces} {stray : Option InAddr} {nam : Option Nam} {c : ℤ} (h : t.TuplesUnique)
    (hok : (t.inp i).Unbound → (t.inp i).inpFaddr = iNADDR_ANY)
    (hres : t.inPcbbind ifs stray i nam = some (c, u)) : u.TuplesUnique := by
  rcases inPcbbind_cases hres with ⟨-, rfl⟩ | ⟨-, a, lport, -, hport, hladdr, hchain, hinp, -⟩
  · exact h
  · refine h.of_any (i := i) (fun j hj hne => ?_) ?_
    · rw [hinp, Function.update_of_ne hne]
      exact ⟨hchain ▸ hj, rfl⟩
    · rw [hinp, Function.update_self]
      exact hok ⟨hport, hladdr⟩

theorem TuplesUnique.listen {r : ℤ × PcbTable ι} {tiDst : InAddr} (h : t.TuplesUnique) (hi : i ∈ t.chain)
    (hfaddr : (t.inp i).inpFaddr = iNADDR_ANY)
    (hok : (if (t.inp i).inpLaddr = iNADDR_ANY then t.setLaddr i tiDst else t).ConnectOk e i nam)
    (hres : t.listenConnect e i tiDst nam = some r) : r.2.TuplesUnique := by
  rw [listenConnect] at hres
  generalize hv : (if (t.inp i).inpLaddr = iNADDR_ANY then t.setLaddr i tiDst else t) = v at hok hres
  have hset : v.TuplesUnique ∧ i ∈ v.chain ∧ (v.inp i).inpFaddr = iNADDR_ANY := by
    subst hv
    split_ifs
    · refine ⟨h.modify hfaddr, hi, ?_⟩
      rw [setLaddr_inp_self]
      exact hfaddr
    · exact ⟨h, hi, hfaddr⟩
  obtain ⟨⟨c, u⟩, hconnect, rfl⟩ := Option.map_eq_some_iff.mp hres
  split_ifs with hc
  · rcases inPcbconnect_cases hconnect with ⟨-, rfl⟩ | ⟨rfl, -⟩
    · exact hset.1.modify hset.2.2
    · exact absurd rfl hc
  · exact hset.1.connect hset.2.1 hok hconnect

/-- A call that meets the condition keeps connections apart. -/
theorem TuplesUnique.call {c : PcbCall ι} (h : t.TuplesUnique) (hok : t.CallOk c) (hstep : t.step c = some u) :
    u.TuplesUnique := by
  cases c with
  | attach i so =>
      rw [step] at hstep
      split_ifs at hstep
      obtain rfl := Option.some.inj hstep
      exact h.alloc so
  | socket i so =>
      obtain ⟨hi, hstep⟩ := within_eq_some.mp hstep
      obtain rfl := Option.some.inj hstep
      refine h.of_one (i := i) (fun j hj hne => ⟨hj, modify_inp_of_ne hne⟩) ?_
      rw [modify_inp_self]
      exact fun hfaddr j hj hne hsame => h i hi j hj (Ne.symm hne) hfaddr hsame
  | bind ifs stray i nam =>
      obtain ⟨hi, hstep⟩ := within_eq_some.mp hstep
      obtain ⟨⟨c, w⟩, hbind, rfl⟩ := Option.map_eq_some_iff.mp hstep
      exact h.bind hok hbind
  | connect e i nam =>
      obtain ⟨hi, hstep⟩ := within_eq_some.mp hstep
      obtain ⟨⟨c, w⟩, hconnect, rfl⟩ := Option.map_eq_some_iff.mp hstep
      exact h.connect hi hok hconnect
  | disconnect i =>
      obtain ⟨hi, hstep⟩ := within_eq_some.mp hstep
      obtain rfl := Option.some.inj hstep
      exact h.disconnect
  | release i laddr =>
      obtain ⟨hi, hstep⟩ := within_eq_some.mp hstep
      obtain rfl := Option.some.inj hstep
      exact h.disconnect.modify inPcbdisconnect_faddr
  | accept i so tiDst tiDport =>
      rw [step] at hstep
      split_ifs at hstep
      obtain rfl := Option.some.inj hstep
      have halloc : ((t.inPcballoc i so).inp i).inpFaddr = iNADDR_ANY := by simp [inPcballoc, Inpcb.new]
      have hladdr : ((t.inPcballoc i so).setLaddr i tiDst).TuplesUnique := (h.alloc so).modify halloc
      exact hladdr.modify (by rwa [setLaddr_inp_self])
  | listen e i tiDst am =>
      obtain ⟨hi, hstep⟩ := within_eq_some.mp hstep
      obtain ⟨r, hlisten, rfl⟩ := Option.map_eq_some_iff.mp hstep
      exact h.listen hi hok.1 hok.2 hlisten
  | detach i =>
      obtain ⟨hi, hstep⟩ := within_eq_some.mp hstep
      obtain rfl := Option.some.inj hstep
      exact fun j hj k hk => h j (List.mem_filter.mp hj).1 k (List.mem_filter.mp hk).1

/-- Over any run in which the calls meet the condition, no two blocks get the same addresses and ports. -/
theorem connectionsApart_of_reach {count : BitVec 16} {inp : ι → Inpcb} (h : Reach step CallOk (init count inp) t) :
    t.ConnectionsApart := by
  have hunique : t.TuplesUnique :=
    h.invariant (fun i hi => absurd hi (by simp [init])) fun _ _ _ hs hok hstep => hs.call hok hstep
  exact hunique.connectionsApart

end PcbTable

/-! ## Examples -/

/-- A host with one interface, 10.0.0.1. -/
def oneInterface : ConnectEnv :=
  let ia : IfAddr := ⟨0x0100000a, 0xff00000a, true⟩
  ⟨some ia, fun _ => true, fun _ => some (false, ia), fun _ => none, fun _ => none, none, some iNADDR_ANY⟩

/-- The name of an address and a port. -/
def namOf (a : InAddr) (p : BitVec 16) : Nam := ⟨16, ⟨16, aF_INET, p, a⟩⟩

/-- Two sockets send to port 2000 of 10.0.0.2: the first is bound to port 1, the second to none, with options. -/
def twoSenders (soOptions : BitVec 16) : List (PcbCall (Fin 2)) :=
  [.attach 0 ⟨0, false, false⟩,
    .bind ⟨true, fun _ => true⟩ none 0 (some (namOf 0x0100000a (htons 1))),
    .connect oneInterface 0 (namOf 0x0200000a (htons 2000)),
    .attach 1 ⟨soOptions, false, false⟩,
    .connect oneInterface 1 (namOf 0x0200000a (htons 2000))]

/-- The same port for both. -/
theorem PcbTable.twoSenders_reuse :
    ∃ t : PcbTable (Fin 2),
      runCalls PcbTable.step (PcbTable.init 0 fun _ => Inpcb.new ⟨0, false, false⟩) (twoSenders sO_REUSEADDR) = some t ∧
        ¬ t.ConnectionsApart := by
  have heval : ((runCalls PcbTable.step (PcbTable.init 0 fun _ => Inpcb.new ⟨0, false, false⟩)
      (twoSenders sO_REUSEADDR)).map fun t => decide t.ConnectionsApart) = some false := by decide +kernel
  obtain ⟨t, ht, hfalse⟩ := Option.map_eq_some_iff.mp heval
  exact ⟨t, ht, of_decide_eq_false hfalse⟩

/-- Without options the second gets a port of its own. -/
theorem PcbTable.connectionsApart_of_twoSenders :
    ∃ t : PcbTable (Fin 2),
      runCalls PcbTable.step (PcbTable.init 0 fun _ => Inpcb.new ⟨0, false, false⟩) (twoSenders 0) = some t ∧
        t.ConnectionsApart := by
  have heval : (runCalls PcbTable.step (PcbTable.init 0 fun _ => Inpcb.new ⟨0, false, false⟩)
      (twoSenders 0)).isSome = true := by decide +kernel
  obtain ⟨t, ht⟩ := Option.isSome_iff_exists.mp heval
  exact ⟨t, ht, PcbTable.connectionsApart_of_reach (Reach.start.of_runCalls _ (by decide +kernel) ht)⟩

end Shaunos.Net
