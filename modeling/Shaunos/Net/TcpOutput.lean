import Shaunos.Net.Errno
import Shaunos.Net.MbufCluster
import Shaunos.Net.TcpCwnd
import Shaunos.Net.TcpWindow

/-!
# A round of `tcp_output`

Reference: `Kernel/netinet/tcp_output.c`, `Kernel/netinet/tcp_subr.c` (`tcp_outflags`),
`Include/kernel/sys/netinet/tcp_timer.h`.

A round decides what to send, sends it and sets the timer for it. `ip_output` sends the segment; what is in it is not
here. The round gives up when there is no mbuf, before it comes to the timer.

* `Conn.output_noStall_iff` — when something waits behind a round and no timer runs for it.
-/

namespace Shaunos.Net

/-! ## The code -/

/-- `tcp_outflags`. -/
def tcpOutflags : TcpState → TcpFlags
  | .closed => ⟨false, false, true, false, true, false⟩
  | .listen => ⟨false, false, false, false, false, false⟩
  | .synSent => ⟨false, true, false, false, false, false⟩
  | .synReceived => ⟨false, true, false, false, true, false⟩
  | .established | .closeWait => ⟨false, false, false, false, true, false⟩
  | .finWait1 | .closing | .lastAck => ⟨true, false, false, false, true, false⟩
  | .finWait2 | .timeWait => ⟨false, false, false, false, true, false⟩

def tcpBackoff : List ℤ := [1, 2, 4, 8, 16, 32, 64, 64, 64, 64, 64, 64, 64]
def tcpMAXRXTSHIFT : ℕ := 12

/-- `TCPTV_PERSMIN` and `TCPTV_PERSMAX`, with `PR_SLOWHZ` 2. -/
def tcptvPERSMIN : ℤ := 5 * 2
def tcptvPERSMAX : ℤ := 60 * 2

/-- `tcp_setpersist`. -/
def tcpSetpersist (tp : Tcpcb) : Tcpcb :=
  let t := (tp.tSrtt.toInt >>> (2 : ℕ) + tp.tRttvar.toInt) >>> (1 : ℕ)
  { tp with
    tTimer := Function.update tp.tTimer .persist
      (tcptRangeset (t * tcpBackoff.getD tp.tRxtshift.toNat 0) tcptvPERSMIN tcptvPERSMAX)
    tRxtshift := if tp.tRxtshift.toInt < tcpMAXRXTSHIFT then tp.tRxtshift + 1 else tp.tRxtshift }

/-- What a round is about to send. -/
structure OutRound where
  tp : Tcpcb
  off : BitVec 32
  len : BitVec 32
  flags : TcpFlags
  sendalot : Bool

/-- What a round finds on the machine. -/
structure OutEnv where
  /-- The route of `tcp_mss`. -/
  rt : Option Rtentry
  /-- `MGETHDR` finds an mbuf. -/
  mGethdr : Bool
  /-- `m_copy` finds mbufs. -/
  mCopy : Bool
  /-- What `ip_output` returns. -/
  ipOutput : ℤ

namespace Conn

variable (s : Conn)

/-- `off`. -/
def off : BitVec 32 := s.tp.sndNxt - s.tp.sndUna

/-- `win` and `flags`, when `t_force` has been looked at. -/
def force : Tcpcb × BitVec 32 × TcpFlags :=
  let win := minWord s.tp.sndWnd s.tp.sndCwnd
  let flags := tcpOutflags s.tp.tState
  if s.tp.tForce then
    if win = 0 then (s.tp, 1, if s.off < s.so.soSnd.sbCc then { flags with thFin := false } else flags)
    else ({ s.tp with tTimer := Function.update s.tp.tTimer .persist 0, tRxtshift := 0 }, win, flags)
  else (s.tp, win, flags)

/-- From the label `again` on: how much there is to send. -/
def round : OutRound :=
  let off := s.off
  let (tp, win, flags) := s.force
  let len := minWord s.so.soSnd.sbCc win - off
  let (tp, len) :=
    if len.toInt < 0 then
      -- the window was closed: what it had is sent again later, without the timer for it
      (if win = 0 then { tp with tTimer := Function.update tp.tTimer .rexmt 0, sndNxt := tp.sndUna } else tp, 0)
    else (tp, len)
  let sendalot := decide ((tp.tMaxseg.toNat : ℤ) < len.toInt)
  let len := if sendalot then tp.maxseg else len
  { tp, off, len, sendalot
    flags := if seqLT (tp.sndNxt + len) (tp.sndUna + s.so.soSnd.sbCc) then { flags with thFin := false } else flags }

end Conn

/-- `adv`: how much further the window can go than the peer knows. -/
def windowAdv (so : Socket) (tp : Tcpcb) : BitVec 32 :=
  BitVec.ofInt 32 (min (sbspace so.soRcv) (tcpMAXWIN <<< tp.rcvScale : ℕ)) - (tp.rcvAdv - tp.rcvNxt)

/-- `win` in the segment, from the space that there was. -/
def sentWin (win : ℤ) (so : Socket) (tp : Tcpcb) : ℤ :=
  let win : ℤ := if win < (so.soRcv.sbHiwat.toNat / 4 : ℕ) ∧ win < tp.tMaxseg.toNat then 0 else win
  let win : ℤ := if win > (tcpMAXWIN <<< tp.rcvScale : ℕ) then (tcpMAXWIN <<< tp.rcvScale : ℕ) else win
  if win < (tp.rcvAdv - tp.rcvNxt).toInt then (tp.rcvAdv - tp.rcvNxt).toInt else win

namespace Tcpcb

variable (tp : Tcpcb)

/-- The segment has been sent. -/
def sentEnd (win : ℤ) : Tcpcb :=
  { tp with
    rcvAdv := if 0 < win ∧ seqGT (tp.rcvNxt + BitVec.ofInt 32 win) tp.rcvAdv
      then tp.rcvNxt + BitVec.ofInt 32 win else tp.rcvAdv
    lastAckSent := tp.rcvNxt
    tfAckNow := false
    tfDelAck := false }

/-- The label `out`. -/
def outputError (error : ℤ) : Tcpcb :=
  if error = -eNOBUFS then tp.quench
  else if (error = -eHOSTUNREACH ∨ error = -eNETDOWN) ∧ tp.tState.haveRcvdSyn then { tp with tSofterror := short error }
  else tp

/-- Nothing is sent. -/
def notSent (so : Socket) : Tcpcb :=
  if so.soSnd.sbCc ≠ 0 ∧ tp.tTimer .rexmt = 0 ∧ tp.tTimer .persist = 0 then tcpSetpersist { tp with tRxtshift := 0 }
  else tp

end Tcpcb

namespace OutRound

variable (r : OutRound)

/-- The round goes to `send`. -/
def Sends (so : Socket) (idle : Bool) : Prop :=
  (r.len ≠ 0 ∧ (r.len = r.tp.maxseg ∨ ((idle ∨ r.tp.tfNoDelay) ∧ so.soSnd.sbCc ≤ r.len + r.off) ∨ r.tp.tForce ∨
    r.tp.maxSndwnd / 2 ≤ r.len ∨ seqLT r.tp.sndNxt r.tp.sndMax)) ∨
  (0 < sbspace so.soRcv ∧ (2 * r.tp.tMaxseg.toNat ≤ (windowAdv so r.tp).toInt ∨
    so.soRcv.sbHiwat.toInt ≤ (2 * windowAdv so r.tp).toInt)) ∨
  r.tp.tfAckNow ∨ (r.flags.thSyn ∨ r.flags.thRst) ∨
  (r.flags.thFin ∧ (¬ r.tp.tfSentFin ∨ r.tp.sndNxt = r.tp.sndUna))

instance (so : Socket) (idle : Bool) : Decidable (r.Sends so idle) := inferInstanceAs (Decidable (_ ∨ _))

/-- From the label `send` on: `snd_nxt` for a SYN, and `optlen`. -/
def options (so : Socket) (rt : Option Rtentry) : Socket × Tcpcb × ℕ :=
  let (so, tp, optlen) :=
    if r.flags.thSyn then
      let tp := { r.tp with sndNxt := r.tp.iss }
      if tp.tfNoOpt then (so, tp, 0)
      else
        let (_, so, tp) := tcpMss rt so tp 0
        (so, tp, if tp.tfReqScale ∧ (¬ r.flags.thAck ∨ tp.tfRcvdScale) then 8 else 4)
    else (so, r.tp, 0)
  (so, tp, optlen + if tp.tfReqTstmp ∧ ¬ tp.tfNoOpt ∧ ¬ r.flags.thRst ∧ ((r.flags.thSyn ∧ ¬ r.flags.thAck) ∨ tp.tfRcvdTstmp)
    then 12 else 0)

/-- There are mbufs for the segment. -/
def Mbufs (optlen : ℕ) (e : OutEnv) : Prop :=
  e.mGethdr ∧ (r.len ≠ 0 → mHLEN - (sizeofTcpiphdr.toNat + optlen) - maxLinkhdr < r.len.toNat → e.mCopy)

instance (optlen : ℕ) (e : OutEnv) : Decidable (r.Mbufs optlen e) := inferInstanceAs (Decidable (_ ∧ _))

/-- `ti_seq`, where a FIN that was sent is sent again. -/
def seq (tp : Tcpcb) : BitVec 32 :=
  if r.flags.thFin ∧ tp.tfSentFin ∧ tp.sndNxt = tp.sndMax then tp.sndNxt - 1 else tp.sndNxt

/-- `snd_nxt` behind the segment. -/
def nxt (tp : Tcpcb) : BitVec 32 :=
  r.seq tp + (if r.flags.thSyn then 1 else 0) + (if r.flags.thFin then 1 else 0) + r.len

/-- `snd_max` behind the segment. -/
def max (tp : Tcpcb) : BitVec 32 := if seqGT (r.nxt tp) tp.sndMax then r.nxt tp else tp.sndMax

/-- The numbers and the timers, before `ip_output`. -/
def sent (tp : Tcpcb) : Tcpcb :=
  let startseq := r.seq tp
  let sndNxt := r.nxt tp
  let sndUp := if seqGT tp.sndUp startseq then tp.sndUp else tp.sndUna
  if ¬ tp.tForce ∨ tp.tTimer .persist = 0 then
    let timed := decide (seqGT sndNxt tp.sndMax ∧ tp.tRtt = 0)
    let tp := { tp with
      sndUp, sndNxt
      sndMax := r.max tp
      tfSentFin := tp.tfSentFin || r.flags.thFin
      tRtt := if timed then 1 else tp.tRtt
      tRtseq := if timed then startseq else tp.tRtseq }
    if tp.tTimer .rexmt = 0 ∧ sndNxt ≠ tp.sndUna then
      { tp with
        tTimer := Function.update (Function.update tp.tTimer .persist 0) .rexmt tp.tRxtcur
        tRxtshift := if tp.tTimer .persist = 0 then tp.tRxtshift else 0 }
    else tp
  else
    { tp with
      sndUp
      sndNxt := startseq
      sndMax := if seqGT (startseq + r.len) tp.sndMax then startseq + r.len else tp.sndMax }

end OutRound

/-- A round: the connection behind it, and if another one comes. -/
def Conn.output (s : Conn) (idle : Bool) (e : OutEnv) : Conn × Bool :=
  let r := s.round
  if r.Sends s.so idle then
    let (so, tp, optlen) := r.options s.so e.rt
    if r.Mbufs optlen e then
      let win := sentWin (sbspace s.so.soRcv) so tp
      let tp := r.sent tp
      if e.ipOutput = 0 then (⟨so, tp.sentEnd win⟩, r.sendalot) else (⟨so, tp.outputError e.ipOutput⟩, false)
    else (⟨so, tp.outputError (-eNOBUFS)⟩, false)
  else (⟨s.so, r.tp.notSent s.so⟩, false)

/-! ## What should hold -/

/-- Something is not acknowledged, or waits to be sent. -/
def Conn.Outstanding (s : Conn) : Prop := s.tp.sndUna ≠ s.tp.sndMax ∨ s.so.soSnd.sbCc ≠ 0

/-- The retransmit timer or the persist timer runs. -/
def Tcpcb.TimerRuns (tp : Tcpcb) : Prop := tp.tTimer .rexmt ≠ 0 ∨ tp.tTimer .persist ≠ 0

/-- No silent stall. -/
def Conn.NoStall (s : Conn) : Prop := s.Outstanding → s.tp.TimerRuns

/-- The last round of a call leaves no timer off. A round that sends nothing sets the persist timer for data. One that
finds no mbufs leaves the timers as they are. One that sends sets the retransmit timer if it is off, to `t_rxtcur`, but
not if `snd_nxt` stays at `snd_una`. -/
def Conn.RoundOk (s : Conn) (idle : Bool) (e : OutEnv) : Prop :=
  let r := s.round
  if r.Sends s.so idle then
    let tp := (r.options s.so e.rt).2.1
    if r.Mbufs (r.options s.so e.rt).2.2 e then
      ¬ (e.ipOutput = 0 ∧ r.sendalot) → r.tp.tTimer .rexmt = 0 → ¬ (r.tp.tForce ∧ r.tp.tTimer .persist ≠ 0) →
        r.tp.sndUna ≠ r.max tp ∨ s.so.soSnd.sbCc ≠ 0 →
        if r.nxt tp = r.tp.sndUna then r.tp.tTimer .persist ≠ 0 else tp.tRxtcur ≠ 0
    else s.Outstanding → r.tp.TimerRuns
  else s.tp.sndUna ≠ s.tp.sndMax → s.so.soSnd.sbCc = 0 → r.tp.TimerRuns

instance (s : Conn) (idle : Bool) (e : OutEnv) : Decidable (s.RoundOk idle e) := by
  unfold Conn.RoundOk Conn.Outstanding Tcpcb.TimerRuns
  infer_instance

/-! ## What a round keeps -/

theorem sentWin_sbspace (so : Socket) (tp : Tcpcb) : sentWin (sbspace so.soRcv) so tp = outputWin so tp := rfl

theorem sentEnd_outputWin (so : Socket) (tp : Tcpcb) : tp.sentEnd (outputWin so tp) = outputEnd so tp := rfl

/-- The numbers and the timers that count here stay as they are. -/
structure Conn.Same (s t : Conn) : Prop where
  una : t.tp.sndUna = s.tp.sndUna
  max : t.tp.sndMax = s.tp.sndMax
  cc : t.so.soSnd.sbCc = s.so.soSnd.sbCc
  rexmt : t.tp.tTimer .rexmt = s.tp.tTimer .rexmt
  persist : t.tp.tTimer .persist = s.tp.tTimer .persist

section

variable {s t u : Conn} {so : Socket} {tp : Tcpcb} {r : OutRound} {idle : Bool} {e : OutEnv}

namespace Conn.Same

theorem refl (s : Conn) : s.Same s := ⟨rfl, rfl, rfl, rfl, rfl⟩

theorem trans (h : s.Same t) (h' : t.Same u) : s.Same u :=
  ⟨h'.una.trans h.una, h'.max.trans h.max, h'.cc.trans h.cc, h'.rexmt.trans h.rexmt, h'.persist.trans h.persist⟩

theorem noStall_iff (h : s.Same t) : t.NoStall ↔ s.NoStall := by
  rw [NoStall, Outstanding, Tcpcb.TimerRuns, h.una, h.max, h.cc, h.rexmt, h.persist]
  rfl

end Conn.Same

theorem sbreserve_sbCc (sb : SockBuf) (cc : BitVec 32) : (sbreserve sb cc).2.sbCc = sb.sbCc := by
  rw [sbreserve]
  split <;> rfl

theorem tcpMss_same (rt : Option Rtentry) (so : Socket) (tp : Tcpcb) (offer : BitVec 16) :
    Conn.Same ⟨so, tp⟩ ⟨(tcpMss rt so tp offer).2.1, (tcpMss rt so tp offer).2.2⟩ ∧
      (tcpMss rt so tp offer).2.2.tForce = tp.tForce := by
  cases rt with
  | none => exact ⟨.refl _, rfl⟩
  | some rt =>
      have htimes : Conn.Same ⟨so, tp⟩ ⟨so, tcpMssTimes rt.rtRmx tp⟩ ∧ (tcpMssTimes rt.rtRmx tp).tForce = tp.tForce := by
        rw [tcpMssTimes]
        dsimp only
        split <;> exact ⟨⟨rfl, rfl, rfl, rfl, rfl⟩, rfl⟩
      generalize htp : tcpMssTimes rt.rtRmx tp = tp' at htimes
      rw [tcpMss]
      dsimp only
      rw [htp]
      refine ⟨htimes.1.trans ⟨?_, ?_, ?cc, ?_, ?_⟩, Eq.trans ?_ htimes.2⟩
      case cc =>
        dsimp only
        split_ifs <;> first | rfl | exact sbreserve_sbCc _ _
      all_goals split_ifs <;> rfl

namespace OutRound

theorem options_same (r : OutRound) (so : Socket) (rt : Option Rtentry) :
    Conn.Same ⟨so, r.tp⟩ ⟨(r.options so rt).1, (r.options so rt).2.1⟩ ∧ (r.options so rt).2.1.tForce = r.tp.tForce := by
  rw [options]
  by_cases hsyn : r.flags.thSyn = true
  · rw [if_pos hsyn]
    by_cases hopt : r.tp.tfNoOpt = true
    · dsimp only
      rw [if_pos hopt]
      exact ⟨⟨rfl, rfl, rfl, rfl, rfl⟩, rfl⟩
    · dsimp only
      rw [if_neg hopt]
      have ⟨hsame, hforce⟩ := tcpMss_same rt so { r.tp with sndNxt := r.tp.iss } 0
      exact ⟨⟨hsame.una, hsame.max, hsame.cc, hsame.rexmt, hsame.persist⟩, hforce⟩
  · rw [if_neg hsyn]
    exact ⟨.refl _, rfl⟩

end OutRound

theorem Conn.round_same (s : Conn) : s.round.tp.sndUna = s.tp.sndUna ∧ s.round.tp.sndMax = s.tp.sndMax ∧
    s.round.tp.tForce = s.tp.tForce := by
  have hforce : s.force.1.sndUna = s.tp.sndUna ∧ s.force.1.sndMax = s.tp.sndMax ∧ s.force.1.tForce = s.tp.tForce := by
    rw [force]
    split_ifs <;> exact ⟨rfl, rfl, rfl⟩
  rw [round]
  dsimp only
  split_ifs <;> exact hforce

namespace Tcpcb

theorem outputError_same (tp : Tcpcb) (so : Socket) (error : ℤ) : Conn.Same ⟨so, tp⟩ ⟨so, tp.outputError error⟩ := by
  rw [outputError]
  split_ifs <;> exact ⟨rfl, rfl, rfl, rfl, rfl⟩

theorem sentEnd_same (tp : Tcpcb) (so : Socket) (win : ℤ) : Conn.Same ⟨so, tp⟩ ⟨so, tp.sentEnd win⟩ :=
  ⟨rfl, rfl, rfl, rfl, rfl⟩

end Tcpcb

/-! ## The timers behind a round -/

/-- The persist timer is never set to 0. -/
theorem tcpSetpersist_persist (tp : Tcpcb) : (tcpSetpersist tp).tTimer .persist ≠ 0 := by
  rw [tcpSetpersist]
  dsimp only
  rw [Function.update_self]
  intro hzero
  have hrange : tcptvPERSMIN ≤ tcptvPERSMAX := by decide
  have hmem := (tcptRangeset_mem_iff ((tp.tSrtt.toInt >>> (2 : ℕ) + tp.tRttvar.toInt) >>> (1 : ℕ) *
    tcpBackoff.getD tp.tRxtshift.toNat 0) (by decide) (by decide)).mpr hrange
  rw [hzero] at hmem
  exact absurd hmem.1 (by decide)

theorem Tcpcb.notSent_noStall_iff (tp : Tcpcb) (so : Socket) : Conn.NoStall ⟨so, tp.notSent so⟩ ↔
    (tp.sndUna ≠ tp.sndMax → so.soSnd.sbCc = 0 → tp.TimerRuns) := by
  rw [notSent]
  split
  · rename_i h
    exact iff_of_true (fun _ => .inr (tcpSetpersist_persist _)) fun _ hcc => absurd hcc h.1
  · rename_i h
    constructor
    · exact fun hno hne _ => hno (.inl hne)
    · intro hno hout
      by_cases hcc : so.soSnd.sbCc = 0
      · exact hno (hout.resolve_right (not_not.mpr hcc)) hcc
      · -- data waits, so that a timer runs or the persist timer is set
        by_contra hruns
        rw [TimerRuns, not_or, not_not, not_not] at hruns
        exact h ⟨hcc, hruns⟩

theorem OutRound.sent_noStall_iff (r : OutRound) (tp : Tcpcb) (so : Socket) : Conn.NoStall ⟨so, r.sent tp⟩ ↔
    (tp.tTimer .rexmt = 0 → ¬ (tp.tForce ∧ tp.tTimer .persist ≠ 0) → tp.sndUna ≠ r.max tp ∨ so.soSnd.sbCc ≠ 0 →
      if r.nxt tp = tp.sndUna then tp.tTimer .persist ≠ 0 else tp.tRxtcur ≠ 0) := by
  rw [sent]
  dsimp only
  by_cases hprobe : tp.tForce = true ∧ tp.tTimer .persist ≠ 0
  · -- the window is probed, and the persist timer goes on
    rw [if_neg (by rw [not_or, not_not]; exact hprobe)]
    exact iff_of_true (fun _ => .inr hprobe.2) fun _ hnot => absurd hprobe hnot
  rw [if_pos (by rwa [not_and_or, not_not] at hprobe)]
  by_cases hset : tp.tTimer .rexmt = 0 ∧ r.nxt tp ≠ tp.sndUna
  · rw [if_pos hset, if_neg hset.2]
    have hruns : ∀ u : Tcpcb, u.tTimer = Function.update (Function.update tp.tTimer .persist 0) .rexmt tp.tRxtcur →
        (u.TimerRuns ↔ tp.tRxtcur ≠ 0) := by
      rintro u hu
      rw [Tcpcb.TimerRuns, hu, Function.update_self, Function.update_of_ne (by decide), Function.update_self]
      exact or_iff_left fun hne => hne rfl
    rw [Conn.NoStall, hruns _ rfl]
    exact ⟨fun hno _ _ hout => hno hout, fun hno hout => hno hset.1 hprobe hout⟩
  · rw [if_neg hset]
    by_cases hrexmt : tp.tTimer .rexmt = 0
    · have hnxt : r.nxt tp = tp.sndUna := not_not.mp fun hne => hset ⟨hrexmt, hne⟩
      rw [if_pos hnxt]
      constructor
      · exact fun hno _ _ hout => (hno hout).resolve_left fun hne => hne hrexmt
      · exact fun hno hout => .inr (hno hrexmt hprobe hout)
    · exact iff_of_true (fun _ => .inl hrexmt) fun hzero => absurd hzero hrexmt

/-- What a last round has to meet. -/
theorem Conn.output_noStall_iff (hlast : (s.output idle e).2 = false) :
    (s.output idle e).1.NoStall ↔ s.RoundOk idle e := by
  obtain ⟨huna, hmax, hforce⟩ := s.round_same
  rw [output] at hlast ⊢
  rw [RoundOk]
  dsimp only at hlast ⊢
  by_cases hsends : s.round.Sends s.so idle
  · rw [if_pos hsends] at hlast ⊢
    rw [if_pos hsends]
    obtain ⟨hsame, hopt⟩ := s.round.options_same s.so e.rt
    generalize s.round.options s.so e.rt = o at hlast hsame hopt ⊢
    by_cases hmbufs : s.round.Mbufs o.2.2 e
    · rw [if_pos hmbufs] at hlast ⊢
      rw [if_pos hmbufs]
      have hsent : Conn.NoStall ⟨o.1, s.round.sent o.2.1⟩ ↔ (s.round.tp.tTimer .rexmt = 0 →
          ¬ (s.round.tp.tForce ∧ s.round.tp.tTimer .persist ≠ 0) → s.round.tp.sndUna ≠ s.round.max o.2.1 ∨ s.so.soSnd.sbCc ≠ 0 →
            if s.round.nxt o.2.1 = s.round.tp.sndUna then s.round.tp.tTimer .persist ≠ 0 else o.2.1.tRxtcur ≠ 0) := by
        rw [OutRound.sent_noStall_iff, hsame.rexmt, hsame.persist, hsame.una, hsame.cc, hopt]
      by_cases herror : e.ipOutput = 0
      · rw [if_pos herror] at hlast ⊢
        have hmore : ¬ (e.ipOutput = 0 ∧ s.round.sendalot = true) :=
          fun hmore => Bool.false_ne_true (hlast.symm.trans hmore.2)
        rw [(Tcpcb.sentEnd_same _ _ _).noStall_iff, hsent]
        exact (imp_iff_right hmore).symm
      · have hmore : ¬ (e.ipOutput = 0 ∧ s.round.sendalot = true) := fun hmore => herror hmore.1
        rw [if_neg herror, (Tcpcb.outputError_same _ _ _).noStall_iff, hsent]
        exact (imp_iff_right hmore).symm
    · rw [if_neg hmbufs, if_neg hmbufs, (Tcpcb.outputError_same _ _ _).noStall_iff, hsame.noStall_iff, NoStall, Outstanding,
        Outstanding, huna, hmax]
  · rw [if_neg hsends, if_neg hsends, Tcpcb.notSent_noStall_iff, huna, hmax]

end

end Shaunos.Net
