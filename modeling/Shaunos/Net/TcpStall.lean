import Shaunos.Common.Run
import Shaunos.Net.TcpInput

/-!
# No silent stall

Reference: `Kernel/netinet/tcp_usrreq.c`, `Kernel/netinet/tcp_timer.c`, `Kernel/netinet/tcp_input.c`,
`Kernel/netinet/tcp_output.c`.

A connection goes through the parts of these functions, from the SYN on. When none of them is under way, and something
is not acknowledged or waits to be sent, then a timer has to run for it.

* `noStall_of_reach` — the rounds and the acknowledgements that keep it so.
-/

namespace Shaunos.Net

/-! ## The code -/

/-- `TCPTV_KEEPINTVL`, and `tcp_maxidle` once `tcp_slowtimo` has set it. -/
def tcptvKEEPINTVL : ℕ := 75 * 2
def tcpMaxidle : ℕ := 8 * tcptvKEEPINTVL

/-- `soisdisconnecting`: what it does to `so_state`. -/
def Socket.isDisconnecting (so : Socket) : Socket := { so with
  ssIsConnecting := false, ssIsDisconnecting := true, ssCantRcvMore := true, ssCantSendMore := true }

/-- The requests of `tcp_usrreq`. -/
inductive UsrReq where
  /-- The flag is for `SO_LINGER` with a time of 0. -/
  | detach (lingerZero : Bool)
  | listen
  | disconnect (lingerZero : Bool)
  | shutdown
  | rcvd
  | send (m : List Mbuf)
  | abort
  | sendoob (m : List Mbuf)
  /-- Those that leave a connection as it is. `PRU_CONNECT` gets no template, and gives up. -/
  | other

/-- What happens to a connection. -/
inductive ConnCall where
  | input (a : Arrival) (env : InputEnv)
  /-- `tcp_input` goes on from `ti_ack`. -/
  | ack
  /-- A round of `tcp_output`. -/
  | round (e : OutEnv)
  /-- `tcp_output` is called. -/
  | output
  | usrreq (req : UsrReq)
  | timers (timer : TcpTimer) (soKeepalive : Bool)
  /-- `tcp_slowtimo` comes to a timer. -/
  | slowtimo (timer : TcpTimer) (soKeepalive : Bool)
  /-- The end of the loop of `tcp_slowtimo`. -/
  | slowtimoEnd
  /-- `tcp_fasttimo`. -/
  | fasttimo
  /-- `soreceive` and `sosetopt`. -/
  | socket (soRcv : SockBuf) (sbHiwat sbMbmax : BitVec 32) (tfNoDelay : Bool)
  /-- `tcp_ctlinput`, with `tcp_quench` or with the `t_softerror` of `tcp_notify`. -/
  | quench
  | notify (tSofterror : BitVec 16)

namespace Conn

variable (s : Conn)

/-- `tcp_usrclosed`, which returns null when the connection is closed at once. -/
def usrclosed : Option Conn :=
  let tState : Option TcpState :=
    match s.tp.tState with
    | .closed | .listen | .synSent => none
    | .synReceived | .established => some .finWait1
    | .closeWait => some .lastAck
    | tState => some tState
  tState.map fun tState =>
    ⟨if TcpState.finWait2.num ≤ tState.num then s.so.isDisconnected else s.so, { s.tp with tState }⟩

/-- `tcp_output` is called for what `tcp_usrclosed` returns. -/
def closeOutput : ConnRun :=
  match s.usrclosed with
  | none => .gone
  | some s => s.callOutput .plain

/-- `tcp_disconnect`. -/
def disconnect (lingerZero : Bool) : Option ConnRun :=
  if s.tp.tState.num < TcpState.established.num then some .gone
  else if lingerZero then some .gone
  else
    let so := s.so.isDisconnecting
    (sbflush so.soRcv).map fun soRcv => closeOutput ⟨{ so with soRcv }, s.tp⟩

/-- `tcp_usrreq`. -/
def usrreq : UsrReq → Option ConnRun
  | .detach lingerZero =>
      if TcpState.listen.num < s.tp.tState.num then s.disconnect lingerZero else some .gone
  | .listen => some (.idle ⟨s.so, { s.tp with tState := .listen }⟩)
  | .disconnect lingerZero => s.disconnect lingerZero
  | .shutdown => some (closeOutput ⟨{ s.so with ssCantSendMore := true }, s.tp⟩)
  | .rcvd => some (s.callOutput .plain)
  | .send m => some (Conn.callOutput ⟨{ s.so with soSnd := sbappend s.so.soSnd m }, s.tp⟩ .plain)
  | .abort => some .gone
  | .sendoob m =>
      if sbspace s.so.soSnd < -512 then some (.idle s)
      else
        let soSnd := sbappend s.so.soSnd m
        some (Conn.callOutput ⟨{ s.so with soSnd }, { s.tp with
          sndUp := s.tp.sndUna + soSnd.sbCc
          tForce := true }⟩ .forced)
  | .other => some (.idle s)

/-- `tcp_timers`. -/
def timers (timer : TcpTimer) (soKeepalive : Bool) : Option ConnRun :=
  match timer with
  | .msl2 =>
      if s.tp.tState ≠ .timeWait ∧ s.tp.tIdle.toInt ≤ tcpMaxidle then
        some (.idle ⟨s.so, s.tp.setTimer .msl2 (BitVec.ofNat 16 tcptvKEEPINTVL)⟩)
      else some .gone
  | .persist => some (Conn.callOutput ⟨s.so, { tcpSetpersist s.tp with tForce := true }⟩ .forced)
  | .keep =>
      if s.tp.tState.num < TcpState.established.num then some .gone
      else if soKeepalive ∧ s.tp.tState.num ≤ TcpState.closeWait.num then
        if ((tcptvKEEPIDLE + tcpMaxidle : ℕ) : ℤ) ≤ s.tp.tIdle.toInt then some .gone
        else some (.idle ⟨s.so, s.tp.setTimer .keep (BitVec.ofNat 16 tcptvKEEPINTVL)⟩)
      else some (.idle ⟨s.so, s.tp.setTimer .keep (BitVec.ofNat 16 tcptvKEEPIDLE)⟩)
  | .rexmt =>
      let tRxtshift := s.tp.tRxtshift + 1
      if (tcpMAXRXTSHIFT : ℤ) < tRxtshift.toInt then some .gone
      else
        let tRxtcur := tcptRangeset (s.tp.tcpRexmtval * tcpBackoff.getD tRxtshift.toNat 0) s.tp.tRttmin.toNat tcptvREXMTMAX
        let tp := { s.tp.setTimer .rexmt tRxtcur with tRxtshift, tRxtcur }
        let tp :=
          if (tcpMAXRXTSHIFT / 4 : ℕ) < tRxtshift.toInt then
            { tp with tRttvar := short (tp.tRttvar.toInt + tp.tSrtt.toInt >>> tcpRTTSHIFT), tSrtt := 0 }
          else tp
        tp.rexmt.map fun tp => Conn.callOutput ⟨s.so, tp⟩ .plain

/-- `tcp_slowtimo` at a timer. -/
def slowtimo (timer : TcpTimer) (soKeepalive : Bool) : Option ConnRun :=
  let tics := s.tp.tTimer timer
  if tics = 0 then some (.idle s)
  else
    let s : Conn := ⟨s.so, s.tp.setTimer timer (tics - 1)⟩
    if tics - 1 = 0 then s.timers timer soKeepalive else some (.idle s)

/-- A call, when nothing is under way. -/
def start : ConnCall → Option ConnRun
  | .input a env => s.input a env
  | .ack | .round _ => none
  | .output => some (s.callOutput .plain)
  | .usrreq req => s.usrreq req
  | .timers timer soKeepalive => s.timers timer soKeepalive
  | .slowtimo timer soKeepalive => s.slowtimo timer soKeepalive
  | .slowtimoEnd => some (.idle ⟨s.so, { s.tp with
      tIdle := s.tp.tIdle + 1
      tRtt := if s.tp.tRtt ≠ 0 then s.tp.tRtt + 1 else s.tp.tRtt }⟩)
  | .fasttimo =>
      if s.tp.tfDelAck then some (Conn.callOutput ⟨s.so, { s.tp with tfDelAck := false, tfAckNow := true }⟩ .plain)
      else some (.idle s)
  | .socket soRcv sbHiwat sbMbmax tfNoDelay => some (.idle ⟨{ s.so with
      soRcv, soSnd := { s.so.soSnd with sbHiwat, sbMbmax } }, { s.tp with tfNoDelay }⟩)
  | .quench => some (.idle ⟨s.so, s.tp.quench⟩)
  | .notify tSofterror => some (.idle ⟨s.so, { s.tp with tSofterror }⟩)

end Conn

/-- Behind `tcp_output`. -/
def Caller.ret (s : Conn) : Caller → Conn
  | .plain => s
  | .forced => ⟨s.so, { s.tp with tForce := false }⟩
  | .fastRexmt onxt => ⟨s.so, { s.tp with
      sndCwnd := s.tp.sndSsthresh + s.tp.maxseg * s.tp.tDupacks.signExtend 32
      sndNxt := if seqGT onxt s.tp.sndNxt then onxt else s.tp.sndNxt }⟩

/-- One part of a function. -/
def ConnRun.step : ConnRun → ConnCall → Option ConnRun
  | .idle s, c => s.start c
  | .ack x, .ack => x.inputAck
  | .output s caller i, .round e =>
      let next := s.output i e
      some (if next.2 then .output next.1 caller i else .idle (caller.ret next.1))
  | _, _ => none

/-! ## What should hold -/

/-- `tcp_output` is called to send the SYN. -/
def ConnRun.Opening : ConnRun → Prop
  | .output s _ _ => s.tp.tState = .synSent ∨ s.tp.tState = .synReceived
  | _ => False

/-- No silent stall, when nothing is under way. -/
def ConnRun.NoStall : ConnRun → Prop
  | .idle s => s.NoStall
  | _ => True

/-- The parts that leave no timer off. -/
def ConnRun.Ok : ConnRun → ConnCall → Prop
  | .idle s, .input a env => s.InputOk a env
  | .ack x, .ack => x.AckOk
  | .output s _ i, .round e => s.RoundOk i e
  | _, _ => True

instance ConnRun.decidableNoStall : (r : ConnRun) → Decidable r.NoStall
  | .idle _ => inferInstanceAs (Decidable (_ ∨ _ → _ ∨ _))
  | .ack _ | .output _ _ _ | .gone => isTrue trivial

instance ConnRun.decidableOk (r : ConnRun) (c : ConnCall) : Decidable (r.Ok c) := by
  unfold ConnRun.Ok
  split <;> infer_instance

/-! ## Runs -/

section

variable {s : Conn} {r r₀ : ConnRun} {c : ConnCall}

theorem Caller.ret_same (caller : Caller) (s : Conn) : s.Same (caller.ret s) := by
  cases caller <;> exact ⟨rfl, rfl, rfl, rfl, rfl⟩

namespace Conn

theorem closeOutput_right (s : Conn) : Exit (some s.closeOutput) := by
  rw [closeOutput]
  split
  · exact exit_gone
  · exact exit_callOutput _ _

theorem disconnect_right (s : Conn) (lingerZero : Bool) : Exit (s.disconnect lingerZero) := by
  rw [disconnect]
  split_ifs
  · exact exit_gone
  · exact exit_gone
  · intro r hr
    obtain ⟨soRcv, -, rfl⟩ := Option.map_eq_some_iff.mp hr
    exact closeOutput_right _ _ rfl

theorem usrreq_right (h : s.NoStall) (req : UsrReq) : Exit (s.usrreq req) := by
  cases req with
  | detach lingerZero =>
      rw [usrreq]
      split_ifs
      · exact s.disconnect_right lingerZero
      · exact exit_gone
  | listen => exact exit_idle.mpr h
  | disconnect lingerZero => exact s.disconnect_right lingerZero
  | shutdown => exact closeOutput_right _
  | rcvd | send => exact exit_callOutput _ _
  | abort => exact exit_gone
  | sendoob m =>
      rw [usrreq]
      split_ifs
      · exact exit_idle.mpr h
      · exact exit_callOutput _ _
  | other => exact exit_idle.mpr h

/-- A timer that runs out starts a round, or it is not one of the two. -/
theorem timers_noStall {timer : TcpTimer} {soKeepalive : Bool} (h : timer ≠ .rexmt → timer ≠ .persist → s.NoStall) :
    Exit (s.timers timer soKeepalive) := by
  cases timer with
  | msl2 =>
      have h := h (by decide) (by decide)
      rw [timers]
      split_ifs
      · exact exit_idle.mpr h
      · exact exit_gone
  | persist => exact exit_callOutput _ _
  | keep =>
      have h := h (by decide) (by decide)
      rw [timers]
      split_ifs
      · exact exit_gone
      · exact exit_gone
      · exact exit_idle.mpr h
      · exact exit_idle.mpr h
  | rexmt =>
      rw [timers]
      dsimp only
      by_cases hmax : (tcpMAXRXTSHIFT : ℤ) < (s.tp.tRxtshift + 1).toInt
      · rw [if_pos hmax]
        exact exit_gone
      · rw [if_neg hmax]
        intro r hr
        obtain ⟨tp, -, rfl⟩ := Option.map_eq_some_iff.mp hr
        exact exit_callOutput _ _ _ rfl

/-- A timer that is counted down and goes on still runs. -/
theorem slowtimo_right (h : s.NoStall) (timer : TcpTimer) (soKeepalive : Bool) : Exit (s.slowtimo timer soKeepalive) := by
  have hother : timer ≠ .rexmt → timer ≠ .persist → ∀ tics, Conn.NoStall ⟨s.so, s.tp.setTimer timer tics⟩ := by
    intro hrexmt hpersist tics
    have hsame : s.Same ⟨s.so, s.tp.setTimer timer tics⟩ :=
      ⟨rfl, rfl, rfl, Function.update_of_ne hrexmt.symm _ _, Function.update_of_ne hpersist.symm _ _⟩
    exact hsame.noStall_iff.mpr h
  rw [slowtimo]
  dsimp only
  split_ifs with hzero hone
  · exact exit_idle.mpr h
  · exact timers_noStall fun hrexmt hpersist => hother hrexmt hpersist _
  · refine exit_idle.mpr ?_
    cases timer with
    | rexmt => exact fun _ => .inl hone
    | persist => exact fun _ => .inr hone
    | keep => exact hother (by decide) (by decide) _
    | msl2 => exact hother (by decide) (by decide) _

theorem start_right (h : s.NoStall) (hok : (ConnRun.idle s).Ok c) : Exit (s.start c) := by
  cases c with
  | input a env => exact input_right h hok
  | ack | round => exact exit_none
  | output => exact exit_callOutput _ _
  | usrreq req => exact usrreq_right h req
  | timers timer soKeepalive => exact timers_noStall fun _ _ => h
  | slowtimo timer soKeepalive => exact slowtimo_right h timer soKeepalive
  | slowtimoEnd | socket | quench | notify => exact exit_idle.mpr h
  | fasttimo =>
      rw [start]
      split_ifs
      · exact exit_callOutput _ _
      · exact exit_idle.mpr h

end Conn

theorem ConnRun.step_right {r t : ConnRun} (h : r.Right) (hok : r.Ok c) (ht : r.step c = some t) : t.Right := by
  cases r with
  | idle s => exact Conn.start_right h hok t ht
  | ack x =>
      cases c with
      | ack => exact Incoming.inputAck_right h.1 h.2 hok t ht
      | _ => cases ht
  | output s caller i =>
      cases c with
      | round e =>
          have hiff : (s.output i e).2 = false → ((s.output i e).1.NoStall ↔ s.RoundOk i e) := Conn.output_noStall_iff
          rw [step] at ht
          generalize s.output i e = next at hiff ht
          obtain rfl := Option.some.inj ht
          split_ifs with hagain
          · trivial
          · exact (caller.ret_same _).noStall_iff.mpr ((hiff (eq_false_of_ne_true hagain)).mpr hok)
      | _ => cases ht
  | gone => cases ht

/-- In a run of parts that leave no timer off, a connection never stalls in silence. -/
theorem noStall_of_reach (h₀ : r₀.Opening) (h : Reach ConnRun.step ConnRun.Ok r₀ r) : r.NoStall := by
  have hinit : r₀.Right := by
    cases r₀ with
    | output => trivial
    | idle | ack | gone => exact absurd h₀ id
  have hright : r.Right := h.invariant hinit fun r c t hr hok ht => ConnRun.step_right hr hok ht
  cases r with
  | idle s => exact hright
  | ack | output | gone => trivial

end

/-- `PRU_CONNECT` calls `tcp_output`. -/
def connecting : ConnRun :=
  Conn.callOutput ⟨attachedSocket, { tcpNewtcpcb with
    tState := .synSent, iss := 1, sndUna := 1, sndNxt := 1, sndMax := 1, sndUp := 1 }⟩ .plain

/-- The answer to the SYN. -/
def synAck : Arrival where
  ti := ⟨0, 1000, 2, ⟨false, true, false, false, true, false⟩, 8192, 0⟩
  opts := fun _ => 0
  optlen := 0
  m := []

/-- A round that finds mbufs, or none. -/
def plainOut (mGethdr : Bool) : OutEnv := ⟨none, mGethdr, true, 0⟩

/-- The connection is made and three bytes are sent. -/
def sendCalls (mGethdr : Bool) : List ConnCall :=
  [.round (plainOut true), .input synAck ⟨none, 0, 0, false, false, true⟩, .round (plainOut true),
    .usrreq (.send [⟨1, false, false, some 3, 0, [1, 2, 3]⟩]), .round (plainOut mGethdr)]

theorem connecting_opening : connecting.Opening := .inl rfl

/-- The run with mbufs. -/
theorem noStall_of_reach_sent : ∃ r, runCalls ConnRun.step connecting (sendCalls true) = some r ∧ r.NoStall := by
  have hok : AllCalls ConnRun.step ConnRun.Ok connecting (sendCalls true) := by decide +kernel
  obtain ⟨r, hr⟩ := Option.isSome_iff_exists.mp
    (by decide +kernel : (runCalls ConnRun.step connecting (sendCalls true)).isSome = true)
  exact ⟨r, hr, noStall_of_reach connecting_opening (Reach.start.of_runCalls _ hok hr)⟩

/-- There is no mbuf for the three bytes, and no timer runs to try again. -/
theorem stalls_without_mbuf : connecting.Opening ∧
    ∃ r, runCalls ConnRun.step connecting (sendCalls false) = some r ∧ ¬ r.NoStall := by
  obtain ⟨r, hr⟩ := Option.isSome_iff_exists.mp
    (by decide +kernel : (runCalls ConnRun.step connecting (sendCalls false)).isSome = true)
  have hstall : ∀ r ∈ runCalls ConnRun.step connecting (sendCalls false), ¬ r.NoStall := by decide +kernel
  exact ⟨connecting_opening, r, hr, hstall r hr⟩

end Shaunos.Net
