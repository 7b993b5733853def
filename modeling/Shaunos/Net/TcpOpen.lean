import Shaunos.Net.PcbCache
import Shaunos.Net.TcpFin

/-!
# Opening a connection

Reference: `Kernel/netinet/tcp_usrreq.c` (`PRU_CONNECT`), `Kernel/netinet/tcp_subr.c` (`tcp_template`),
`Kernel/netinet/tcp_input.c` (`tcp_input`: `sonewconn`, `TCPS_LISTEN`), `Kernel/netinet/tcp_output.c`.

An active and a passive open get their block's addresses, then the template of their segments, and then send a SYN.
`tcp_template` fills the template in and returns 0.

* `synSend_opened` — what `PRU_CONNECT` would do with a template;
* `openRight_iff` — when the opens do what is expected: only if a step before fails.
-/

namespace Shaunos.Net

/-! ## The code -/

/-- `TCPTV_KEEP_INIT`. -/
def tcptvKEEPINIT : ℕ := 75 * 2

/-- The addresses and ports of the template of a connection's segments. -/
structure TcpTemplate where
  tiSrc : InAddr
  tiDst : InAddr
  tiSport : BitVec 16
  tiDport : BitVec 16
deriving DecidableEq

/-- The template for a block. -/
def Inpcb.template (inp : Inpcb) : TcpTemplate := ⟨inp.inpLaddr, inp.inpFaddr, inp.inpLport, inp.inpFport⟩

/-- `tcp_template`: what it returns, and `t_tempbuf`. `mGet` says if there is an mbuf for it. -/
def tcpTemplate (inp : Inpcb) (tTemplate tTempbuf : Option TcpTemplate) (mGet : Bool) :
    Option TcpTemplate × Option TcpTemplate :=
  if tTemplate = none ∧ mGet = false then (none, tTempbuf) else (none, some inp.template)

/-- A segment as `ip_output` gets it. -/
structure TcpSegment where
  template : TcpTemplate
  tiSeq : BitVec 32
  tiFlags : TcpFlags

/-- `ti_seq` and `ti_flags`. -/
def OutRound.segment (r : OutRound) (tp : Tcpcb) (template : TcpTemplate) : TcpSegment where
  template := template
  tiSeq := if r.len ≠ 0 ∨ r.flags.thSyn ∨ r.flags.thFin ∨ tp.tTimer .persist ≠ 0 then r.seq tp else tp.sndMax
  tiFlags := if seqGT tp.sndUp (r.seq tp) then { r.flags with thUrg := true } else r.flags

namespace Conn

variable (s : Conn)

/-- The segment of a round. -/
def segment (idle : Bool) (e : OutEnv) (template : TcpTemplate) : Option TcpSegment :=
  let r := s.round
  let (_, tp, optlen) := r.options s.so e.rt
  if r.Sends s.so idle ∧ r.Mbufs optlen e then some (r.segment tp template) else none

/-- What `tcp_output` returns behind its last round. -/
def outputRet (idle : Bool) (e : OutEnv) : ℤ :=
  let r := s.round
  if r.Sends s.so idle ∧ r.Mbufs (r.options s.so e.rt).2.2 e then
    if e.ipOutput = -eNOBUFS then 0
    else if (e.ipOutput = -eHOSTUNREACH ∨ e.ipOutput = -eNETDOWN) ∧ s.tp.tState.haveRcvdSyn then 0
    else e.ipOutput
  else 0

/-- The rounds of `tcp_output`, as long as there is something on the machine for them. -/
def outputRounds (template : TcpTemplate) (idle : Bool) : Conn → List OutEnv → Option (ℤ × Conn × List TcpSegment)
  | _, [] => none
  | s, e :: es =>
      let seg := (s.segment idle e template).toList
      let next := s.output idle e
      if next.2 then (outputRounds template idle next.1 es).map fun r => (r.1, r.2.1, seg ++ r.2.2)
      else some (s.outputRet idle e, next.1, seg)

/-- `tcp_output`. -/
def tcpOutput (template : TcpTemplate) (es : List OutEnv) : Option (ℤ × Conn × List TcpSegment) :=
  outputRounds template (s.tp.sndMax = s.tp.sndUna) { s with tp := s.tp.outputIdle } es

end Conn

/-- `soisconnecting`. -/
def Socket.isConnecting (so : Socket) : Socket :=
  { so with ssIsConnected := false, ssIsDisconnecting := false, ssIsConnecting := true }

/-- The loop for `request_r_scale`, at most `fuel` times. -/
def requestScale (sbHiwat : BitVec 32) : (fuel : ℕ) → ℕ → ℕ
  | 0, scale => scale
  | fuel + 1, scale =>
      if scale < tcpMAXWINSHIFT ∧ tcpMAXWIN <<< scale < sbHiwat.toNat then requestScale sbHiwat fuel (scale + 1) else scale

namespace Tcpcb

/-- `tcp_sendseqinit`. -/
def sendseqinit (tp : Tcpcb) (iss : BitVec 32) : Tcpcb :=
  { tp with iss, sndUna := iss, sndNxt := iss, sndMax := iss, sndUp := iss }

/-- `request_r_scale` for the receive buffer. -/
def requestScales (tp : Tcpcb) (so : Socket) : Tcpcb :=
  { tp with requestRScale := requestScale so.soRcv.sbHiwat tcpMAXWINSHIFT tp.requestRScale }

end Tcpcb

/-- The tables of TCP, and one connection. -/
structure OpenConn (ι : Type*) where
  table : PcbTable ι
  conn : Conn
  tTemplate : Option TcpTemplate
  tTempbuf : Option TcpTemplate
  tcpIss : BitVec 32

/-- What an open finds on the machine. -/
structure OpenEnv where
  connect : ConnectEnv
  /-- `m_get` in `tcp_template`. -/
  mGet : Bool
  out : List OutEnv

namespace OpenConn

variable {ι : Type*} [DecidableEq ι] (s : OpenConn ι)

/-- `PRU_CONNECT` behind the template. -/
def synSend (template : TcpTemplate) (out : List OutEnv) : Option (ℤ × OpenConn ι × List TcpSegment) :=
  let so := s.conn.so.isConnecting
  let tp := (s.conn.tp.requestScales s.conn.so).setTimer .keep (BitVec.ofNat 16 tcptvKEEPINIT)
  let tp := { tp.sendseqinit s.tcpIss with tState := .synSent }
  (Conn.tcpOutput ⟨so, tp⟩ template out).map fun r =>
    (r.1, { s with conn := r.2.1, tcpIss := s.tcpIss + BitVec.ofNat 32 (tcpISSINCR / 2) }, r.2.2)

/-- `PRU_CONNECT`: what it returns, and the segments that are sent. -/
def pruConnect (e : OpenEnv) (i : ι) (nam : Nam) : Option (ℤ × OpenConn ι × List TcpSegment) :=
  (s.table.tcpConnect e.connect i nam).bind fun r =>
    let s := { s with table := r.2 }
    if r.1 ≠ 0 then some (r.1, s, [])
    else
      let t := tcpTemplate (s.table.inp i) s.tTemplate s.tTempbuf e.mGet
      let s := { s with tTemplate := t.1, tTempbuf := t.2 }
      match t.1 with
      | none => some (-eNOBUFS, { s with table := s.table.inPcbdisconnect i }, [])
      | some template => s.synSend template e.out

end OpenConn

/-- What a SYN for a socket that listens finds. -/
structure SynEnv (ι : Type*) extends OpenEnv where
  /-- `sonewconn`: the new block, its socket, and the connection as `tcp_attach` leaves it. -/
  newConn : Option (ι × PcbSocket × Conn)
  /-- `M_BCAST` or `M_MCAST` -/
  mBcast : Bool
  /-- `m_get` for `am`. -/
  am : Bool
  input : InputEnv
  /-- `iss`, when the segment comes behind a connection in `TCPS_TIME_WAIT`. -/
  iss : BitVec 32
  tcpIss : BitVec 32

/-- `TCPS_LISTEN` behind the template. -/
def Incoming.synReceive (x : Incoming) (a : Arrival) (iss tcpIss : BitVec 32) : Option Incoming :=
  let x? : Option Incoming :=
    if a.optlen = 0 ∨ x.tsPresent then some x
    else
      (tcpDooptions a.opts a.ti.tiFlags.thSyn x.env.rt (a.optlen + 1) a.optlen ⟨x.so, x.tp, false, 0, 0, [], [], []⟩).map
        fun r => { x with so := r.so, tp := r.tp, tsPresent := r.tsPresent, tsVal := r.tsVal, tsEcr := r.tsEcr }
  x?.map fun x =>
    let tp := tcpRcvseqinit (x.tp.sendseqinit (if iss ≠ 0 then iss else tcpIss)) x.ti.tiSeq
    Incoming.trimSyn { x with
      tp := { tp.setTimer .keep (BitVec.ofNat 16 tcptvKEEPINIT) with tfAckNow := true, tState := .synReceived } }

/-- `step6` to the end, with the rounds of `tcp_output`. -/
def Incoming.finishOutput (x : Incoming) (template : TcpTemplate) (out : List OutEnv) : Option (Conn × List TcpSegment) :=
  match x.finish false with
  | some (.output s _ idle) => (Conn.outputRounds template idle s out).map Prod.snd
  | some (.idle s) => some (s, [])
  | _ => none

namespace PcbTable

variable {ι : Type*} [DecidableEq ι] (t : PcbTable ι)

/-- The new block. -/
def newBlock (i : ι) (so : PcbSocket) (dst : InAddr) (dport : BitVec 16) : PcbTable ι :=
  ((t.inPcballoc i so).setLaddr i dst).setLport i dport

/-- `am`. -/
def synName (src : InAddr) (sport : BitVec 16) : Nam := ⟨16, ⟨16, aF_INET, sport, src⟩⟩

/-- `tcp_input` for a socket that listens, from `sonewconn` on: the table, the connection if it is there, and the
segments that are sent from it. -/
def synInput (e : SynEnv ι) (a : Arrival) (src : InAddr) (sport : BitVec 16) (dst : InAddr) (dport : BitVec 16) :
    Option (PcbTable ι × Option Conn × List TcpSegment) :=
  match e.newConn with
  | none => some (t, none, [])
  | some (i, so, s) =>
      let t := t.newBlock i so dst dport
      if a.ti.tiFlags.thRst ∨ a.ti.tiFlags.thAck ∨ ¬ a.ti.tiFlags.thSyn ∨ e.mBcast ∨ inMulticast (swab32 dst) ∨ ¬ e.am then
        -- `soabort`
        some (t.inPcbdetach i, none, [])
      else
        (t.listenConnect e.connect i dst (synName src sport)).bind fun r =>
          if r.1 ≠ 0 then some (r.2.inPcbdetach i, none, [])
          else
            match (tcpTemplate (r.2.inp i) none none e.mGet).1 with
            | none => some (r.2.inPcbdetach i, none, []) -- `tcp_drop`
            | some template =>
                (Conn.incoming ⟨s.so, { s.tp.requestScales s.so with tState := .listen }⟩ a e.input).bind fun x =>
                  (Incoming.synReceive { x with tp := setRcvWnd x.so x.tp } a e.iss e.tcpIss).bind fun x =>
                    (x.finishOutput template e.out).map fun q => (r.2, some q.1, q.2)

end PcbTable

/-! ## What should hold -/

/-- There is memory for the template and for each segment, and `ip_output` takes them. -/
def OpenEnv.Memory (e : OpenEnv) : Prop :=
  e.mGet = true ∧ e.out ≠ [] ∧ ∀ o ∈ e.out, o.mGethdr = true ∧ o.mCopy = true ∧ o.ipOutput = 0

instance (e : OpenEnv) : Decidable e.Memory := inferInstanceAs (Decidable (_ ∧ _ ∧ _))

namespace PcbTable

variable {ι : Type*}

variable [DecidableEq ι]

/-- Binding, where the block has no port, and the way to the name. -/
def TcpConnects (t : PcbTable ι) (e : ConnectEnv) (i : ι) (nam : Nam) : Prop :=
  if (t.inp i).inpLport = 0 then
    ∃ u, t.inPcbbind ⟨e.inIfaddr.isSome, e.ifaIfwithaddr⟩ e.stray i none = some (0, u) ∧ u.Connects e i nam
  else t.Connects e i nam

/-- The block has the same addresses in both tables. -/
def SameAddrs (t u : PcbTable ι) (i : ι) : Prop :=
  (u.inp i).inpLaddr = (t.inp i).inpLaddr ∧ (u.inp i).inpFaddr = (t.inp i).inpFaddr

/-- A block of the table. Without a port and an address it is not connected. -/
structure Attached (t : PcbTable ι) (i : ι) : Prop where
  mem : i ∈ t.chain
  unbound : (t.inp i).Unbound → (t.inp i).inpFaddr = iNADDR_ANY

/-- `in_pcbbind` leaves the address: it is not called, it fails, or the word that `sin` leads to is `INADDR_ANY` and a
port is found. -/
def BindKept (t : PcbTable ι) (e : ConnectEnv) (i : ι) : Prop :=
  (t.inp i).inpLport ≠ 0 ∨ (t.inp i).inpLaddr ≠ iNADDR_ANY ∨ e.inIfaddr = none ∨
    (e.stray = some iNADDR_ANY ∧ (t.inPcbbind ⟨e.inIfaddr.isSome, e.ifaIfwithaddr⟩ e.stray i none).isSome)

/-- All steps of a passive open succeed. -/
def SynSucceeds (t : PcbTable ι) (e : SynEnv ι) (a : Arrival) (src : InAddr) (sport : BitVec 16) (dst : InAddr)
    (dport : BitVec 16) : Prop :=
  a.ti.tiFlags.thRst = false ∧ a.ti.tiFlags.thAck = false ∧ a.ti.tiFlags.thSyn = true ∧ e.mBcast = false ∧
    inMulticast (swab32 dst) = false ∧ e.am = true ∧ e.Memory ∧
    ∃ n ∈ e.newConn, ((t.newBlock n.1 n.2.1 dst dport).listenConnect e.connect n.1 dst (synName src sport)).any (·.1 = 0)

/-- A SYN makes a new connection, to which a SYN with an acknowledgement is sent; or no block is changed. -/
def SynRight (t : PcbTable ι) (e : SynEnv ι) (a : Arrival) (src : InAddr) (sport : BitVec 16) (dst : InAddr)
    (dport : BitVec 16) : Prop :=
  ∃ r, t.synInput e a src sport dst dport = some r ∧
    (t.SynSucceeds e a src sport dst dport → ∃ s ∈ r.2.1, s.tp.tState = .synReceived ∧
      ∃ n ∈ e.newConn, ∃ seg, r.2.2 = [seg] ∧ seg.template = (r.1.inp n.1).template ∧ seg.tiFlags.thSyn = true ∧
        seg.tiFlags.thAck = true) ∧
    (¬ t.SynSucceeds e a src sport dst dport → ∀ j ∈ t.chain, j ∈ r.1.chain ∧ t.SameAddrs r.1 j)

end PcbTable

namespace OpenConn

variable {ι : Type*}

/-- The connection is in `TCPS_SYN_SENT`, and its SYN is sent from its block. -/
structure Opened (s : OpenConn ι) (i : ι) (segs : List TcpSegment) : Prop where
  state : s.conn.tp.tState = .synSent
  una : s.conn.tp.sndUna = s.conn.tp.iss
  nxt : s.conn.tp.sndNxt = s.conn.tp.iss + 1
  max : s.conn.tp.sndMax = s.conn.tp.iss + 1
  syn : ∃ seg, segs = [seg] ∧ seg.template = (s.table.inp i).template ∧ seg.tiSeq = s.conn.tp.iss ∧
    seg.tiFlags.thSyn = true ∧ seg.tiFlags.thAck = false

variable [DecidableEq ι]

/-- `PRU_CONNECT` sends a SYN if all steps succeed, and leaves the addresses of the block if one does not. -/
def ConnectRight (s : OpenConn ι) (e : OpenEnv) (i : ι) (nam : Nam) : Prop :=
  ∃ r, s.pruConnect e i nam = some r ∧
    (s.table.TcpConnects e.connect i nam ∧ e.Memory → r.1 = 0 ∧ r.2.1.Opened i r.2.2) ∧
    (¬ (s.table.TcpConnects e.connect i nam ∧ e.Memory) → s.table.SameAddrs r.2.1.table i)

/-- The step that fails is `in_pcbbind`, which leaves the address, or `in_pcbconnect`, or the one for memory; in that
case the block had no foreign address, and it had an address of its own or gets `INADDR_ANY` from the interface. -/
def ConnectOk (s : OpenConn ι) (e : OpenEnv) (i : ι) (nam : Nam) : Prop :=
  s.table.BindKept e.connect i ∧ (s.table.TcpConnects e.connect i nam →
    ¬ e.Memory ∧ (s.table.inp i).inpFaddr = iNADDR_ANY ∧
      ((s.table.inp i).inpLaddr ≠ iNADDR_ANY ∨ e.connect.ifaddr (PcbTable.connectName e.connect nam) = some iNADDR_ANY))

end OpenConn

/-! ## The active open -/

theorem tcpTemplate_fst (inp : Inpcb) (tTemplate tTempbuf : Option TcpTemplate) (mGet : Bool) :
    (tcpTemplate inp tTemplate tTempbuf mGet).1 = none := by
  rw [tcpTemplate]
  split_ifs <;> rfl

namespace PcbTable

variable {ι : Type*} [DecidableEq ι] {t u : PcbTable ι} {e : ConnectEnv} {i : ι} {nam : Nam}

/-- A block with a port is connected if the name is a good one, and is left as it is if not. -/
theorem inPcbconnect_spec (hport : (t.inp i).inpLport ≠ 0) :
    (t.Connects e i nam ∧ ∃ u, t.inPcbconnect e i nam = some (0, u) ∧
      some (u.inp i).inpLaddr = t.connectLaddr e i nam) ∨
    (¬ t.Connects e i nam ∧ ∃ c, c ≠ 0 ∧ t.inPcbconnect e i nam = some (c, t)) := by
  by_cases hconn : t.Connects e i nam
  · refine .inl ⟨hconn, ?_⟩
    obtain ⟨laddr, hladdr, heq⟩ := inPcbconnect_of_connects hconn
    rw [heq, if_neg hport, hladdr]
    by_cases hany : (t.inp i).inpLaddr = iNADDR_ANY
    · rw [if_pos hany]
      refine ⟨_, rfl, ?_⟩
      simp [setForeign, setLaddr, modify]
    · rw [if_neg hany]
      refine ⟨_, rfl, ?_⟩
      rw [connectLaddr, if_neg hany] at hladdr
      simpa [setForeign, modify] using hladdr
  · exact .inr ⟨hconn, inPcbconnect_of_not_connects hconn⟩

/-- Binding without a name. The address is the word that `sin` leads to. -/
theorem inPcbbind_spec (h : t.Attached i) (hport : (t.inp i).inpLport = 0) :
    ((e.inIfaddr = none ∨ (t.inp i).inpLaddr ≠ iNADDR_ANY) ∧
      ∃ c, c ≠ 0 ∧ t.inPcbbind ⟨e.inIfaddr.isSome, e.ifaIfwithaddr⟩ e.stray i none = some (c, t)) ∨
    ((e.inIfaddr ≠ none ∧ (t.inp i).inpLaddr = iNADDR_ANY) ∧
      (t.inPcbbind ⟨e.inIfaddr.isSome, e.ifaIfwithaddr⟩ e.stray i none = none ∨
        ∃ a v, e.stray = some a ∧ t.inPcbbind ⟨e.inIfaddr.isSome, e.ifaIfwithaddr⟩ e.stray i none = some (0, v) ∧
          (v.inp i).inpLport ≠ 0 ∧ (v.inp i).inpLaddr = a ∧ (v.inp i).inpFaddr = iNADDR_ANY)) := by
  by_cases hchecks : t.BindChecks ⟨e.inIfaddr.isSome, e.ifaIfwithaddr⟩ i none
  · have hif : e.inIfaddr ≠ none := Option.isSome_iff_ne_none.mp hchecks.1
    have hany : (t.inp i).inpLaddr = iNADDR_ANY := hchecks.2.2.1
    refine .inr ⟨⟨hif, hany⟩, ?_⟩
    cases hbind : t.inPcbbind ⟨e.inIfaddr.isSome, e.ifaIfwithaddr⟩ e.stray i none with
    | none => exact .inl rfl
    | some r =>
        obtain ⟨c, v⟩ := r
        have hfaddr := h.unbound ⟨hport, hany⟩
        refine .inr ?_
        rcases inPcbbind_cases hbind with ⟨hc, -⟩ | ⟨rfl, a, lport, ha, -, -, -, hinp, hfree⟩
        · rw [inPcbbind_search hchecks rfl] at hbind
          obtain ⟨a, -, hmap⟩ := Option.bind_eq_some_iff.mp hbind
          obtain ⟨r, -, heq⟩ := Option.map_eq_some_iff.mp hmap
          exact absurd (congrArg Prod.fst heq).symm hc
        · refine ⟨a, v, ha, rfl, ?_⟩
          rw [hinp, Function.update_self]
          exact ⟨(hfree rfl (portUsed_zero h.mem hport hfaddr)).1, rfl, hfaddr⟩
  · obtain ⟨c, hc, hbind⟩ := inPcbbind_of_not_checks e.stray hchecks
    refine .inl ⟨?_, c, hc, hbind⟩
    by_contra hboth
    rw [not_or, not_not] at hboth
    exact hchecks ⟨Option.isSome_iff_ne_none.mpr hboth.1, hport, hboth.2, _, rfl⟩

end PcbTable

namespace OpenConn

variable {ι : Type*} [DecidableEq ι] {s : OpenConn ι} {e : OpenEnv} {i : ι} {nam : Nam}

/-- There is never a template: the block is disconnected again, and nothing is sent. -/
theorem pruConnect_eq {r : ℤ × PcbTable ι} (h : s.table.tcpConnect e.connect i nam = some r) :
    ∃ c u, s.pruConnect e i nam = some (c, u, []) ∧ u.table = if r.1 ≠ 0 then r.2 else r.2.inPcbdisconnect i := by
  rw [pruConnect, h, Option.bind_some]
  dsimp only
  by_cases hc : r.1 ≠ 0
  · rw [if_pos hc, if_pos hc]
    exact ⟨r.1, _, rfl, rfl⟩
  · rw [if_neg hc, if_neg hc, tcpTemplate_fst]
    exact ⟨-eNOBUFS, _, rfl, rfl⟩

theorem connectRight_iff_table : s.ConnectRight e i nam ↔ ∃ r, s.table.tcpConnect e.connect i nam = some r ∧
    ¬ (s.table.TcpConnects e.connect i nam ∧ e.Memory) ∧
    s.table.SameAddrs (if r.1 ≠ 0 then r.2 else r.2.inPcbdisconnect i) i := by
  constructor
  · rintro ⟨q, hq, hall, hfail⟩
    obtain ⟨r, hr, -⟩ := Option.bind_eq_some_iff.mp hq
    obtain ⟨c, u, heq, htable⟩ := pruConnect_eq hr
    obtain rfl : q = (c, u, []) := Option.some.inj (hq.symm.trans heq)
    have hnot : ¬ (s.table.TcpConnects e.connect i nam ∧ e.Memory) := by
      intro hsteps
      obtain ⟨seg, hseg, -⟩ := (hall hsteps).2.syn
      cases hseg
    exact ⟨r, hr, hnot, htable ▸ hfail hnot⟩
  · rintro ⟨r, hr, hnot, hsame⟩
    obtain ⟨c, u, heq, htable⟩ := pruConnect_eq hr
    exact ⟨(c, u, []), heq, fun hsteps => absurd hsteps hnot, fun _ => htable.symm ▸ hsame⟩

/-- The addresses, when a block with a port has been through `in_pcbconnect`. -/
theorem connected_iff {t v : PcbTable ι} {c : ConnectEnv} {m : Prop} (hport : (v.inp i).inpLport ≠ 0)
    (hfaddr : (v.inp i).inpFaddr = (t.inp i).inpFaddr) :
    (∃ r, v.inPcbconnect c i nam = some r ∧ ¬ (v.Connects c i nam ∧ m) ∧
      t.SameAddrs (if r.1 ≠ 0 then r.2 else r.2.inPcbdisconnect i) i) ↔
    (v.Connects c i nam → ¬ m ∧ (t.inp i).inpFaddr = iNADDR_ANY ∧ v.connectLaddr c i nam = some (t.inp i).inpLaddr) ∧
      (¬ v.Connects c i nam → (v.inp i).inpLaddr = (t.inp i).inpLaddr) := by
  rcases @PcbTable.inPcbconnect_spec _ _ v c i nam hport with ⟨hconnects, u, hu, hladdr⟩ | ⟨hfails, d, hd, hu⟩
  · rw [hu, ← hladdr, Option.some.injEq]
    constructor
    · rintro ⟨r, hr, hnot, hsame⟩
      obtain rfl := Option.some.inj hr
      rw [if_neg (not_not.mpr rfl), PcbTable.SameAddrs, PcbTable.inPcbdisconnect_self] at hsame
      exact ⟨fun _ => ⟨fun hm => hnot ⟨hconnects, hm⟩, hsame.2.symm, hsame.1⟩, fun hfails => absurd hconnects hfails⟩
    · rintro ⟨hright, -⟩
      obtain ⟨hm, hany, hsame⟩ := hright hconnects
      refine ⟨_, rfl, fun h => hm h.2, ?_⟩
      rw [if_neg (not_not.mpr rfl), PcbTable.SameAddrs, PcbTable.inPcbdisconnect_self]
      exact ⟨hsame, hany.symm⟩
  · rw [hu]
    constructor
    · rintro ⟨r, hr, -, hsame⟩
      obtain rfl := Option.some.inj hr
      rw [if_pos hd] at hsame
      exact ⟨fun hconnects => absurd hconnects hfails, fun _ => hsame.1⟩
    · rintro ⟨-, hsame⟩
      refine ⟨_, rfl, fun h => hfails h.1, ?_⟩
      rw [if_pos hd]
      exact ⟨hsame hfails, hfaddr⟩

theorem connectRight_iff (h : s.table.Attached i) : s.ConnectRight e i nam ↔ s.ConnectOk e i nam := by
  rw [connectRight_iff_table, ConnectOk, PcbTable.BindKept, PcbTable.TcpConnects, PcbTable.tcpConnect]
  by_cases hport : (s.table.inp i).inpLport = 0
  · simp only [if_pos hport]
    rw [or_iff_right (not_not.mpr hport)]
    rcases PcbTable.inPcbbind_spec (e := e.connect) h hport with ⟨hfails, c, hc, hbind⟩ | ⟨⟨hif, hany⟩, hbind | ⟨a, v, ha, hbind, hv⟩⟩
    · -- the block is not bound
      rw [hbind, Option.bind_some, if_pos hc]
      have hnot : ¬ ∃ u, some (c, s.table) = some (0, u) ∧ u.Connects e.connect i nam := by
        rintro ⟨u, hu, -⟩
        exact hc (congrArg Prod.fst (Option.some.inj hu))
      refine iff_of_true ⟨_, rfl, fun h => hnot h.1, ?_⟩ ⟨?_, fun h => absurd h hnot⟩
      · rw [if_pos hc]
        exact ⟨rfl, rfl⟩
      · rcases hfails with hif | hladdr
        · exact .inr (.inl hif)
        · exact .inl hladdr
    · -- no port is found
      rw [hbind]
      refine iff_of_false ?_ ?_
      · rintro ⟨r, hr, -⟩
        cases hr
      · rintro ⟨hladdr | hnone | ⟨-, hsome⟩, -⟩
        · exact hladdr hany
        · exact hif hnone
        · cases hsome
    · -- the block has a port, and the address that it was bound to
      obtain ⟨hvport, hvladdr, hvfaddr⟩ := hv
      have hfaddr := h.unbound ⟨hport, hany⟩
      have hconnects : (∃ u, some ((0 : ℤ), v) = some (0, u) ∧ u.Connects e.connect i nam) ↔ v.Connects e.connect i nam := by
        constructor
        · rintro ⟨u, hu, hconnects⟩
          obtain rfl : v = u := congrArg Prod.snd (Option.some.inj hu)
          exact hconnects
        · exact fun hconnects => ⟨v, rfl, hconnects⟩
      rw [hbind, Option.bind_some, if_neg (not_not.mpr rfl), hconnects, connected_iff hvport (hvfaddr.trans hfaddr.symm),
        hvladdr, hany]
      have hkept : (iNADDR_ANY ≠ iNADDR_ANY ∨ e.connect.inIfaddr = none ∨
          (e.connect.stray = some iNADDR_ANY ∧ (some ((0 : ℤ), v)).isSome = true)) ↔ a = iNADDR_ANY := by
        rw [or_iff_right (not_not.mpr rfl), or_iff_right hif, ha, Option.some.injEq]
        exact and_iff_left rfl
      rw [hkept]
      by_cases hzero : a = iNADDR_ANY
      · have hlocal : v.connectLaddr e.connect i nam = e.connect.ifaddr (PcbTable.connectName e.connect nam) :=
          if_pos (hvladdr.trans hzero)
        rw [hlocal, or_iff_right (not_not.mpr rfl)]
        exact ⟨fun hright => ⟨hzero, hright.1⟩, fun hright => ⟨hright.2, fun _ => hzero⟩⟩
      · have hlocal : v.connectLaddr e.connect i nam = some a := by
          rw [PcbTable.connectLaddr, hvladdr, if_neg hzero]
        rw [hlocal, Option.some.injEq]
        refine iff_of_false ?_ fun hright => hzero hright.1
        rintro ⟨hright, hsame⟩
        by_cases hv : v.Connects e.connect i nam
        · exact hzero (hright hv).2.2
        · exact hzero (hsame hv)
  · simp only [if_neg hport]
    rw [connected_iff hport rfl]
    have hlocal : s.table.connectLaddr e.connect i nam = some (s.table.inp i).inpLaddr ↔
        (s.table.inp i).inpLaddr ≠ iNADDR_ANY ∨
          e.connect.ifaddr (PcbTable.connectName e.connect nam) = some iNADDR_ANY := by
      rw [PcbTable.connectLaddr]
      split_ifs with hany
      · rw [or_iff_right (not_not.mpr hany), hany]
      · exact iff_of_true rfl (.inl hany)
    rw [hlocal]
    exact ⟨fun hright => ⟨.inl hport, hright.1⟩, fun hright => ⟨hright.2, fun _ => rfl⟩⟩

end OpenConn

/-! ## The passive open -/

namespace PcbTable

variable {ι : Type*} [DecidableEq ι] {t u : PcbTable ι} {i : ι}

/-- Only one block is changed. -/
def Around (i : ι) (t u : PcbTable ι) : Prop := u.chain = t.chain ∧ ∀ j, j ≠ i → u.inp j = t.inp j

omit [DecidableEq ι] in
theorem Around.trans {v : PcbTable ι} (h : Around i t u) (h' : Around i u v) : Around i t v :=
  ⟨h'.1.trans h.1, fun j hj => (h'.2 j hj).trans (h.2 j hj)⟩

theorem around_modify (f : Inpcb → Inpcb) : Around i t (t.modify i f) := ⟨rfl, fun _ hj => modify_inp_of_ne hj⟩

/-- `listenConnect` returns, for a block with a port. -/
theorem listenConnect_spec {e : ConnectEnv} {nam : Nam} (dst : InAddr) (hport : (t.inp i).inpLport ≠ 0) :
    ∃ r, t.listenConnect e i dst nam = some r ∧ Around i t r.2 := by
  rw [listenConnect]
  generalize hv : (if (t.inp i).inpLaddr = iNADDR_ANY then t.setLaddr i dst else t) = v
  have hset : Around i t v ∧ (v.inp i).inpLport ≠ 0 := by
    subst hv
    split_ifs
    · refine ⟨around_modify _, ?_⟩
      rw [setLaddr_inp_self]
      exact hport
    · exact ⟨⟨rfl, fun _ _ => rfl⟩, hport⟩
  obtain ⟨hv, hvport⟩ := hset
  rcases @inPcbconnect_spec _ _ v e i nam hvport with ⟨-, u, hu, -⟩ | ⟨-, c, hc, hu⟩
  · rw [hu]
    refine ⟨_, rfl, ?_⟩
    change Around i t u
    rcases inPcbconnect_cases hu with ⟨hne, -⟩ | ⟨-, laddr, lport, hchain, hinp, -⟩
    · exact absurd rfl hne
    · refine hv.trans ⟨hchain, fun j hj => ?_⟩
      rw [hinp, Function.update_of_ne hj]
  · rw [hu]
    refine ⟨_, rfl, ?_⟩
    dsimp only
    rw [if_pos hc]
    exact hv.trans (around_modify _)

theorem newBlock_spec (so : PcbSocket) (dst : InAddr) (dport : BitVec 16) :
    (t.newBlock i so dst dport).chain = i :: t.chain ∧ ((t.newBlock i so dst dport).inp i).inpLport = dport ∧
      ∀ j, j ≠ i → (t.newBlock i so dst dport).inp j = t.inp j := by
  refine ⟨rfl, ?_, fun j hj => ?_⟩
  · simp [newBlock, setLport, modify]
  · simp [newBlock, setLport, setLaddr, modify, inPcballoc, hj]

/-- The new connection is always dropped, and the blocks that were there stay as they are. -/
theorem synInput_drops {e : SynEnv ι} (hnew : ∀ n ∈ e.newConn, n.1 ∉ t.chain) (a : Arrival) (src : InAddr)
    (sport : BitVec 16) (dst : InAddr) {dport : BitVec 16} (hport : dport ≠ 0) :
    ∃ u, t.synInput e a src sport dst dport = some (u, none, []) ∧ ∀ j ∈ t.chain, j ∈ u.chain ∧ u.inp j = t.inp j := by
  rw [synInput]
  cases hconn : e.newConn with
  | none => exact ⟨t, rfl, fun j hj => ⟨hj, rfl⟩⟩
  | some n =>
      obtain ⟨i, so, s⟩ := n
      have hi : i ∉ t.chain := hnew _ hconn
      obtain ⟨hchain, hlport, hinp⟩ := newBlock_spec (t := t) (i := i) so dst dport
      have hdetach : ∀ u, Around i (t.newBlock i so dst dport) u →
          ∀ j ∈ t.chain, j ∈ (u.inPcbdetach i).chain ∧ (u.inPcbdetach i).inp j = t.inp j := by
        intro u hu j hj
        have hne : j ≠ i := fun h => hi (h ▸ hj)
        refine ⟨List.mem_filter.mpr ⟨?_, decide_eq_true hne⟩, (hu.2 j hne).trans (hinp j hne)⟩
        rw [hu.1, hchain]
        exact List.mem_cons_of_mem _ hj
      dsimp only
      split_ifs with hdrop
      · exact ⟨_, rfl, hdetach _ ⟨rfl, fun _ _ => rfl⟩⟩
      · obtain ⟨r, hr, haround⟩ :=
          @listenConnect_spec _ _ _ _ e.connect (synName src sport) dst (hlport.symm ▸ hport)
        rw [hr, Option.bind_some]
        split_ifs with hc
        · exact ⟨_, rfl, hdetach _ haround⟩
        · rw [tcpTemplate_fst]
          exact ⟨_, rfl, hdetach _ haround⟩

theorem synRight_iff {e : SynEnv ι} (hnew : ∀ n ∈ e.newConn, n.1 ∉ t.chain) (a : Arrival) (src : InAddr)
    (sport : BitVec 16) (dst : InAddr) {dport : BitVec 16} (hport : dport ≠ 0) :
    t.SynRight e a src sport dst dport ↔ ¬ t.SynSucceeds e a src sport dst dport := by
  obtain ⟨u, hu, hkept⟩ := synInput_drops hnew a src sport dst hport
  rw [SynRight, hu]
  constructor
  · rintro ⟨r, hr, hall, -⟩ hsucceeds
    obtain rfl := Option.some.inj hr
    obtain ⟨s, hs, -⟩ := hall hsucceeds
    cases hs
  · intro hnot
    refine ⟨_, rfl, fun h => absurd h hnot, fun _ j hj => ⟨(hkept j hj).1, ?_⟩⟩
    rw [SameAddrs, (hkept j hj).2]
    exact ⟨rfl, rfl⟩

end PcbTable

/-! ## With a template -/

/-- A round that sends a SYN and nothing else. -/
theorem Conn.round_syn {s : Conn} (hstate : s.tp.tState = .synSent) (hcc : s.so.soSnd.sbCc = 0)
    (hforce : s.tp.tForce = false) (hnxt : s.tp.sndNxt = s.tp.sndUna) :
    s.round = ⟨s.tp, s.off, 0, tcpOutflags .synSent, false⟩ := by
  have hoff : s.off = 0 := by rw [off, hnxt, sub_self]
  have hmin : ∀ win, minWord 0 win = 0 := by
    intro win
    refine BitVec.eq_of_toNat_eq ?_
    rw [Tcpcb.toNat_minWord]
    exact Nat.zero_min _
  have hseq : ¬ seqLT (s.tp.sndNxt + 0) (s.tp.sndUna + 0) := by
    rw [hnxt, seqLT, sub_self]
    decide
  have hlen : ¬ (s.tp.tMaxseg.toNat : ℤ) < (0 : BitVec 32).toInt := by
    have hzero : (0 : BitVec 32).toInt = 0 := by decide
    rw [hzero]
    omega
  have hneg : ¬ (0 : BitVec 32).toInt < 0 := by decide
  rw [round, force]
  simp only [hforce, Bool.false_eq_true, if_false, hcc, hmin, hoff, sub_zero, hneg, hlen, decide_false, hseq, hstate]

/-- What is sent behind a SYN. -/
theorem OutRound.sent_syn {r : OutRound} {tp : Tcpcb} (hflags : r.flags = tcpOutflags .synSent) (hlen : r.len = 0)
    (hforce : tp.tForce = false) (hnxt : tp.sndNxt = tp.iss) (hmax : tp.sndMax = tp.iss) :
    (r.sent tp).tState = tp.tState ∧ (r.sent tp).sndUna = tp.sndUna ∧ (r.sent tp).iss = tp.iss ∧
      (r.sent tp).sndNxt = tp.iss + 1 ∧ (r.sent tp).sndMax = tp.iss + 1 := by
  have hseq : r.seq tp = tp.iss := by
    rw [seq, hflags, if_neg fun h => absurd h.1 (by decide), hnxt]
  have hnext : r.nxt tp = tp.iss + 1 := by
    rw [nxt, hseq, hflags, hlen]
    simp [tcpOutflags]
  have hlast : r.max tp = tp.iss + 1 := by
    have hgt : seqGT (tp.iss + 1) tp.iss := by
      rw [seqGT, add_sub_cancel_left]
      decide
    rw [OutRound.max, hnext, hmax, if_pos hgt]
  have hfirst : ¬ tp.tForce = true ∨ tp.tTimer .persist = 0 := .inl (by rw [hforce]; exact Bool.false_ne_true)
  rw [sent]
  dsimp only
  rw [if_pos hfirst, hnext, hlast]
  split_ifs <;> exact ⟨rfl, rfl, rfl, rfl, rfl⟩

/-- `tcp_output` sends a SYN, and does not come again. -/
theorem Conn.tcpOutput_syn {s : Conn} (hstate : s.tp.tState = .synSent) (hcc : s.so.soSnd.sbCc = 0)
    (hforce : s.tp.tForce = false) (huna : s.tp.sndUna = s.tp.iss) (hnxt : s.tp.sndNxt = s.tp.iss)
    (hmax : s.tp.sndMax = s.tp.iss) (template : TcpTemplate) {o : OutEnv} (hgethdr : o.mGethdr = true) (hip : o.ipOutput = 0)
    (rest : List OutEnv) :
    ∃ t seg, s.tcpOutput template (o :: rest) = some (0, t, [seg]) ∧ t.tp.tState = .synSent ∧ t.tp.iss = s.tp.iss ∧
      t.tp.sndUna = s.tp.iss ∧ t.tp.sndNxt = s.tp.iss + 1 ∧ t.tp.sndMax = s.tp.iss + 1 ∧ seg.template = template ∧
      seg.tiSeq = s.tp.iss ∧ seg.tiFlags.thSyn = true ∧ seg.tiFlags.thAck = false := by
  have hview : Conn.view ⟨s.so, s.tp.outputIdle⟩ = s.view := s.tp.outputIdle_view s.so
  have hidle : s.tp.outputIdle.tForce = false := by
    rw [Tcpcb.outputIdle]
    split_ifs <;> exact hforce
  rw [tcpOutput, outputRounds]
  generalize decide (s.tp.sndMax = s.tp.sndUna) = idle
  generalize s.tp.outputIdle = tp at hview hidle ⊢
  have hustate : tp.tState = .synSent := (congrArg SendView.state hview).trans hstate
  have huuna : tp.sndUna = s.tp.iss := (congrArg SendView.una hview).trans huna
  have hunxt : tp.sndNxt = s.tp.iss := (congrArg SendView.nxt hview).trans hnxt
  have humax : tp.sndMax = s.tp.iss := (congrArg SendView.max hview).trans hmax
  have huiss : tp.iss = s.tp.iss := congrArg SendView.iss hview
  have hround := round_syn (s := ⟨s.so, tp⟩) hustate hcc hidle (hunxt.trans huuna.symm)
  rw [segment, output, outputRet, hround]
  generalize hr : (⟨tp, Conn.off ⟨s.so, tp⟩, 0, tcpOutflags .synSent, false⟩ : OutRound) = r
  have hflags : r.flags = tcpOutflags .synSent := by rw [← hr]
  have hlen : r.len = 0 := by rw [← hr]
  have hrtp : r.tp = tp := by rw [← hr]
  have hagain : r.sendalot = false := by rw [← hr]
  have hsyn : r.flags.thSyn = true := by rw [hflags]; rfl
  have hoptions := r.options_view s.so o.rt
  have hopt := (r.options_same s.so o.rt).2
  dsimp only
  generalize r.options s.so o.rt = p at hoptions hopt ⊢
  obtain ⟨so, tp', optlen⟩ := p
  dsimp only at hoptions hopt ⊢
  have hsends : r.Sends s.so idle := .inr (.inr (.inr (.inl (.inl hsyn))))
  have hmbufs : r.Mbufs optlen o := ⟨hgethdr, fun hne => absurd hlen hne⟩
  rw [hrtp] at hoptions hopt
  have hpiss : tp'.iss = s.tp.iss := (congrArg SendView.iss hoptions).trans huiss
  have hpnxt : tp'.sndNxt = tp'.iss := by
    have hnxt' : tp'.sndNxt = if r.flags.thSyn then tp.iss else tp.sndNxt := congrArg SendView.nxt hoptions
    rw [hnxt', if_pos hsyn, huiss, hpiss]
  have hpuna : tp'.sndUna = s.tp.iss := (congrArg SendView.una hoptions).trans huuna
  have hpmax : tp'.sndMax = tp'.iss := ((congrArg SendView.max hoptions).trans humax).trans hpiss.symm
  have hpstate : tp'.tState = .synSent := (congrArg SendView.state hoptions).trans hustate
  obtain ⟨hst, hsu, hsi, hsn, hsm⟩ := r.sent_syn hflags hlen (hopt.trans hidle) hpnxt hpmax
  have hboth : r.Sends s.so idle ∧ r.Mbufs optlen o := ⟨hsends, hmbufs⟩
  have hret : ((if (0 : ℤ) = -eNOBUFS then 0 else if ((0 : ℤ) = -eHOSTUNREACH ∨ (0 : ℤ) = -eNETDOWN) ∧
      tp.tState.haveRcvdSyn then 0 else 0) : ℤ) = 0 := by
    split_ifs <;> rfl
  simp only [if_pos hsends, if_pos hmbufs, if_pos hboth, hip, hagain, if_true, Bool.false_eq_true, if_false, hret]
  refine ⟨_, _, rfl, hst.trans hpstate, hsi.trans hpiss, hsu.trans hpuna, hsn.trans (by rw [hpiss]), hsm.trans (by rw [hpiss]),
    rfl, ?_, ?_, ?_⟩
  · change (if r.len ≠ 0 ∨ r.flags.thSyn = true ∨ r.flags.thFin = true ∨ tp'.tTimer .persist ≠ 0 then r.seq tp' else tp'.sndMax) = _
    rw [if_pos (.inr (.inl hsyn)), OutRound.seq, hflags, if_neg fun h => absurd h.1 (by decide), hpnxt, hpiss]
  · change (if seqGT tp'.sndUp (r.seq tp') then { r.flags with thUrg := true } else r.flags).thSyn = true
    split_ifs <;> exact hsyn
  · change (if seqGT tp'.sndUp (r.seq tp') then { r.flags with thUrg := true } else r.flags).thAck = false
    rw [hflags]
    split_ifs <;> rfl

namespace OpenConn

variable {ι : Type*} {s : OpenConn ι} {i : ι}

/-- With a template, `PRU_CONNECT` sends a SYN. -/
theorem synSend_opened {out : List OutEnv} (hforce : s.conn.tp.tForce = false) (hcc : s.conn.so.soSnd.sbCc = 0)
    (hne : out ≠ []) (hout : ∀ o ∈ out, o.mGethdr = true ∧ o.mCopy = true ∧ o.ipOutput = 0) :
    ∃ r, s.synSend (s.table.inp i).template out = some r ∧ r.1 = 0 ∧ r.2.1.Opened i r.2.2 := by
  cases out with
  | nil => exact absurd rfl hne
  | cons o rest =>
      obtain ⟨hgethdr, -, hip⟩ := hout o List.mem_cons_self
      rw [synSend]
      dsimp only
      generalize htp : ({ ((s.conn.tp.requestScales s.conn.so).setTimer .keep (BitVec.ofNat 16 tcptvKEEPINIT)).sendseqinit
        s.tcpIss with tState := .synSent } : Tcpcb) = tp
      obtain ⟨t, seg, ht, hstate, hiss, huna, hnxt, hmax, htemplate, hseq, hsyn, hack⟩ :=
        Conn.tcpOutput_syn (s := ⟨s.conn.so.isConnecting, tp⟩) (by rw [← htp]) hcc (by rw [← htp]; exact hforce) (by rw [← htp]; rfl)
          (by rw [← htp]; rfl) (by rw [← htp]; rfl) (s.table.inp i).template hgethdr hip rest
      rw [ht]
      refine ⟨_, rfl, rfl, hstate, huna.trans hiss.symm, hnxt.trans (by rw [hiss]), hmax.trans (by rw [hiss]), seg, rfl,
        htemplate, hseq.trans hiss.symm, hsyn, hack⟩

end OpenConn

/-! ## Both opens -/

section

variable {ι : Type*} [DecidableEq ι]

/-- The opens do what is expected only if a step fails before the template is asked for, or for it, and where
`PRU_CONNECT` has not changed an address by then. -/
theorem openRight_iff (s : OpenConn ι) (e : SynEnv ι) {i : ι} (h : s.table.Attached i)
    (hnew : ∀ n ∈ e.newConn, n.1 ∉ s.table.chain) (nam : Nam) (a : Arrival) (src : InAddr) (sport : BitVec 16) (dst : InAddr)
    {dport : BitVec 16} (hport : dport ≠ 0) :
    (s.ConnectRight e.toOpenEnv i nam ↔ s.ConnectOk e.toOpenEnv i nam) ∧
      (s.table.SynRight e a src sport dst dport ↔ ¬ s.table.SynSucceeds e a src sport dst dport) :=
  ⟨OpenConn.connectRight_iff h, PcbTable.synRight_iff hnew a src sport dst hport⟩

omit [DecidableEq ι] in
/-- In the tables of TCP that can be reached, all blocks are as the opens expect them. -/
theorem Demux.CacheInv.attached {s : Demux ι} (h : s.CacheInv) {i : ι} (hi : i ∈ s.table.chain) : s.table.Attached i :=
  ⟨hi, h.unbound i hi⟩

end

/-- A socket with port 1025, which is connected to nothing, and another one that listens at port 23. -/
def twoSockets : OpenConn (Fin 3) where
  table := ⟨1024, [0, 1], fun i => ⟨iNADDR_ANY, 0, iNADDR_ANY, if i = 0 then htons 1025 else htons 23,
    ⟨if i = 0 then 0 else sO_ACCEPTCONN, true, false⟩⟩⟩
  conn := ⟨attachedSocket, tcpNewtcpcb⟩
  tTemplate := none
  tTempbuf := none
  tcpIss := 1

/-- There is memory for everything, and a route over one interface. -/
def plentyEnv : SynEnv (Fin 3) where
  connect := oneInterface
  mGet := true
  out := [plainOut true]
  newConn := some (2, ⟨0, true, false⟩, ⟨attachedSocket, tcpNewtcpcb⟩)
  mBcast := false
  am := true
  input := ⟨none, 0, 0, false, false, true⟩
  iss := 0
  tcpIss := 1

theorem twoSockets_attached : twoSockets.table.Attached 0 := ⟨by decide, fun _ => rfl⟩

theorem openRight_iff_twoSockets :
    (twoSockets.ConnectRight plentyEnv.toOpenEnv 0 (namOf 0x0200000a (htons 80)) ↔
      twoSockets.ConnectOk plentyEnv.toOpenEnv 0 (namOf 0x0200000a (htons 80))) ∧
    (twoSockets.table.SynRight plentyEnv synAck 0x0200000a (htons 2000) 0x0100000a (htons 23) ↔
      ¬ twoSockets.table.SynSucceeds plentyEnv synAck 0x0200000a (htons 2000) 0x0100000a (htons 23)) :=
  openRight_iff twoSockets plentyEnv twoSockets_attached (by decide) _ _ _ _ _ (by decide)

/-- All steps succeed, and no SYN is sent. -/
theorem connect_without_template : twoSockets.table.Attached 0 ∧
    twoSockets.table.TcpConnects plentyEnv.connect 0 (namOf 0x0200000a (htons 80)) ∧ plentyEnv.Memory ∧
    ¬ twoSockets.ConnectRight plentyEnv.toOpenEnv 0 (namOf 0x0200000a (htons 80)) := by
  have hport : ¬ (twoSockets.table.inp 0).inpLport = 0 := by decide
  have hconnects : twoSockets.table.TcpConnects plentyEnv.connect 0 (namOf 0x0200000a (htons 80)) := by
    rw [PcbTable.TcpConnects, if_neg hport]
    exact ⟨by decide, by decide, by decide, 0x0100000a, by decide, by decide⟩
  have hmemory : plentyEnv.Memory := ⟨rfl, by decide, by decide⟩
  refine ⟨twoSockets_attached, hconnects, hmemory, fun hright => ?_⟩
  exact ((OpenConn.connectRight_iff twoSockets_attached).mp hright).2 hconnects |>.1 hmemory

end Shaunos.Net
