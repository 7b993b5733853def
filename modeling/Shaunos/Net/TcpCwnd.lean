import Shaunos.Common.Run
import Shaunos.Net.TcpOptions

/-!
# The segment size and the congestion window

Reference: `Kernel/netinet/tcp_input.c` (`tcp_input`, what it does with `ti_ack`), `Kernel/netinet/tcp_timer.c`
(`tcp_timers`), `Kernel/netinet/tcp_subr.c` (`tcp_quench`, `tcp_close`), `Kernel/netinet/tcp_output.c`
(`tcp_output`), `Kernel/net/uipc_socket.c` (`sosetopt`).

* `cwndRight_iff` — when the window and the threshold are at least a segment all along a run, and nothing is
  divided by 0.
-/

namespace Shaunos.Net

/-! ## The code -/

def tcprexmtthresh : ℤ := 3

def minWord (a b : BitVec 32) : BitVec 32 := if a < b then a else b

namespace Tcpcb

variable (tp : Tcpcb)

/-- `t_maxseg` in an expression of type `u32`. -/
def maxseg : BitVec 32 := tp.tMaxseg.setWidth 32

/-- A division by `t_maxseg`, which must not be 0. -/
def divSeg (x : BitVec 32) : Option (BitVec 32) := if tp.tMaxseg = 0 then none else some (x / tp.maxseg)

/-- `win * t_maxseg`, with half of the window for `win`, and at least 2. -/
def halfWindow : Option (BitVec 32) := do
  let win ← tp.divSeg (minWord tp.sndWnd tp.sndCwnd / 2)
  return (if win < 2 then 2 else win) * tp.maxseg

/-- `TCPT_REXMT` in `tcp_timers`, as far as it changes the window. -/
def rexmt : Option Tcpcb := do
  let sndSsthresh ← tp.halfWindow
  return { tp with sndNxt := tp.sndUna, tRtt := 0, sndCwnd := tp.maxseg, sndSsthresh, tDupacks := 0 }

/-- `tcp_quench`. -/
def quench : Tcpcb := { tp with sndCwnd := tp.maxseg }

/-- The first lines of `tcp_output`. -/
def outputIdle : Tcpcb :=
  if tp.sndMax = tp.sndUna ∧ tp.tRxtcur.toInt ≤ tp.tIdle.toInt then { tp with sndCwnd := tp.maxseg } else tp

/-- What `tcp_close` makes of the threshold `i` for the route. -/
def closeSsthresh (rmx : RtMetrics) (i : BitVec 32) : Option (BitVec 32) := do
  let i ← tp.divSeg (i + tp.maxseg / 2)
  let i := (if i < 2 then 2 else i) * (tp.maxseg + sizeofTcpiphdr)
  return if rmx.rmxSsthresh ≠ 0 then (rmx.rmxSsthresh + i) / 2 else i

/-- `incr`. -/
def incr : BitVec 32 :=
  if tp.sndSsthresh < tp.sndCwnd then tp.maxseg * tp.maxseg / tp.sndCwnd + tp.maxseg / 8 else tp.maxseg

/-- The window is opened. -/
def openWindow : Tcpcb :=
  { tp with sndCwnd := minWord (tp.sndCwnd + tp.incr) (BitVec.ofNat 32 (tcpMAXWIN <<< tp.sndScale)) }

/-- A new `ti_ack` comes: the window that was opened for duplicates is closed again. -/
def endDupacks : Tcpcb :=
  { tp with
    sndCwnd := if tcprexmtthresh < tp.tDupacks.toInt ∧ tp.sndSsthresh < tp.sndCwnd then tp.sndSsthresh else tp.sndCwnd
    tDupacks := 0 }

/-- The segment is sent again at once. -/
def fastRexmt (tiAck : BitVec 32) : Option Tcpcb := do
  let sndSsthresh ← tp.halfWindow
  return { tp with
    sndSsthresh
    tTimer := Function.update tp.tTimer .rexmt 0
    tRtt := 0
    sndNxt := if seqGT tp.sndNxt tiAck then tp.sndNxt else tiAck
    sndCwnd := sndSsthresh + tp.maxseg * tp.tDupacks.signExtend 32 }

/-- What `tcp_input` does to the window for `ti_ack`. -/
def ackWindow (ti : Tcpiphdr) (tiwin : BitVec 32) : Option Tcpcb :=
  if seqLEQ ti.tiAck tp.sndUna then
    if ti.tiLen = 0 ∧ tiwin = tp.sndWnd then
      if tp.tTimer .rexmt = 0 ∨ ti.tiAck ≠ tp.sndUna then some { tp with tDupacks := 0 }
      else
        let tp := { tp with tDupacks := tp.tDupacks + 1 }
        if tp.tDupacks.toInt = tcprexmtthresh then tp.fastRexmt ti.tiAck
        else if tcprexmtthresh < tp.tDupacks.toInt then some { tp with sndCwnd := tp.sndCwnd + tp.maxseg }
        else some tp
    else some { tp with tDupacks := 0 }
  else if seqGT ti.tiAck tp.sndMax then some tp.endDupacks
  else some tp.endDupacks.openWindow

end Tcpcb

/-- The size of the receive buffer in `tcp_mss`. -/
def mssRecvsize (rt : Rtentry) (so : Socket) : BitVec 32 :=
  if rt.rtRmx.rmxRecvpipe = 0 then so.soRcv.sbHiwat else rt.rtRmx.rmxRecvpipe

/-- `tcp_mss` sets `t_maxseg`. -/
def MssSets (rt : Rtentry) (tp : Tcpcb) (offer : BitVec 16) : Prop :=
  mssOffered rt offer < tp.tMaxseg.toNat ∨ offer ≠ 0

instance (rt : Rtentry) (tp : Tcpcb) (offer : BitVec 16) : Decidable (MssSets rt tp offer) :=
  inferInstanceAs (Decidable (_ ∨ _))

/-- A connection. -/
structure Conn where
  so : Socket
  tp : Tcpcb

/-- `tcp_mss`. The size of the receive buffer must not be rounded to a multiple of 0. -/
def Conn.mss (s : Conn) (rt : Option Rtentry) (offer : BitVec 16) : Option Conn :=
  if ∀ r ∈ rt, MssSets r s.tp offer → mssBufsize r s.so = 0 → mssRecvsize r s.so = 0 then
    some ⟨(tcpMss rt s.so s.tp offer).2.1, (tcpMss rt s.so s.tp offer).2.2⟩
  else none

/-- What happens to a connection. -/
inductive CwndCall where
  /-- One of the options that `tcp_dooptions` comes to, at `p`. -/
  | option (mem : ℕ → Byte) (syn : Bool) (rt : Option Rtentry) (p : ℕ)
  /-- `tcp_mss` for the option that `tcp_output` sends. -/
  | sendMss (rt : Option Rtentry)
  /-- `SO_SNDBUF`. -/
  | setSndbuf (cc : BitVec 32)
  /-- `SO_RCVBUF`. -/
  | setRcvbuf (cc : BitVec 32)
  /-- `tcp_input` comes to `ti_ack`. -/
  | ack (ti : Tcpiphdr) (tiwin : BitVec 32)
  /-- `snd_scale = requested_s_scale` in `tcp_input`. -/
  | scale
  | rexmt
  | quench
  | outputIdle
  /-- `tcp_close` comes to the threshold of the route. -/
  | close (rmx : RtMetrics) (i : BitVec 32)
  /-- All else that the functions do: the fields that count here stay as they are. -/
  | other (so : Socket) (tp : Tcpcb)

/-- The option is a segment size that is used. -/
def mssOption (mem : ℕ → Byte) (syn : Bool) (p : ℕ) : Bool :=
  mem p ≠ tcpoptEOL ∧ optlen mem p ≠ 0 ∧ mem p = tcpoptMAXSEG ∧ optlen mem p = tcpolenMAXSEG ∧ syn

/-- An option, without what `tcp_dooptions` does for time stamps. -/
def Conn.option (s : Conn) (mem : ℕ → Byte) (syn : Bool) (rt : Option Rtentry) (p : ℕ) : Option Conn :=
  if mssOption mem syn p then s.mss rt (ntohs mem (p + 2))
  else
    let r := (tcpDooption mem syn rt p ⟨s.so, s.tp, false, 0, 0, [], [], []⟩).1
    some ⟨r.so, r.tp⟩

namespace Conn

variable (s : Conn)

def call : CwndCall → Option Conn
  | .option mem syn rt p => s.option mem syn rt p
  | .sendMss rt => s.mss rt 0
  | .setSndbuf cc => some { s with so := { s.so with soSnd := (sbreserve s.so.soSnd cc).2 } }
  | .setRcvbuf cc => some { s with so := { s.so with soRcv := (sbreserve s.so.soRcv cc).2 } }
  | .ack ti tiwin => (s.tp.ackWindow ti tiwin).map fun tp => { s with tp }
  | .scale => some { s with tp := { s.tp with sndScale := s.tp.requestedSScale } }
  | .rexmt => s.tp.rexmt.map fun tp => { s with tp }
  | .quench => some { s with tp := s.tp.quench }
  | .outputIdle => some { s with tp := s.tp.outputIdle }
  | .close rmx i => (s.tp.closeSsthresh rmx i).map fun _ => s
  | .other so tp => some {
      so := { so with
        soSnd := { so.soSnd with sbHiwat := s.so.soSnd.sbHiwat }
        soRcv := { so.soRcv with sbHiwat := s.so.soRcv.sbHiwat } }
      tp := { tp with
        tMaxseg := s.tp.tMaxseg
        sndCwnd := s.tp.sndCwnd
        sndSsthresh := s.tp.sndSsthresh
        sndScale := s.tp.sndScale
        requestedSScale := s.tp.requestedSScale } }

end Conn

/-! ## What should hold -/

/-- A segment has a size, and the window and the threshold are not less. -/
structure Tcpcb.CwndRight (tp : Tcpcb) : Prop where
  maxseg : 0 < tp.tMaxseg.toNat
  cwnd : tp.tMaxseg.toNat ≤ tp.sndCwnd.toNat
  ssthresh : tp.tMaxseg.toNat ≤ tp.sndSsthresh.toNat

/-- If `tcp_mss` sets the size, then the send buffer has a size, and without a threshold of the route the new size is
not more than the threshold. -/
def MssOk (rt : Option Rtentry) (so : Socket) (tp : Tcpcb) (offer : BitVec 16) : Prop :=
  ∀ r ∈ rt, MssSets r tp offer → mssBufsize r so ≠ 0 ∧
    (r.rtRmx.rmxSsthresh = 0 → min (mssOffered r offer) (mssBufsize r so).toNat ≤ tp.sndSsthresh.toNat)

instance (rt : Option Rtentry) (so : Socket) (tp : Tcpcb) (offer : BitVec 16) : Decidable (MssOk rt so tp offer) := by
  unfold MssOk
  infer_instance

/-- Where the window is opened, 32 bits are enough for it. -/
def AckOk (tp : Tcpcb) (ti : Tcpiphdr) (tiwin : BitVec 32) : Prop :=
  if seqLEQ ti.tiAck tp.sndUna then
    ti.tiLen = 0 → tiwin = tp.sndWnd → tp.tTimer .rexmt ≠ 0 → ti.tiAck = tp.sndUna →
      tcprexmtthresh < (tp.tDupacks + 1).toInt → tp.sndCwnd.toNat + tp.tMaxseg.toNat < 2 ^ 32
  else ¬ seqGT ti.tiAck tp.sndMax → tp.endDupacks.sndCwnd.toNat + tp.endDupacks.incr.toNat < 2 ^ 32

instance (tp : Tcpcb) (ti : Tcpiphdr) (tiwin : BitVec 32) : Decidable (AckOk tp ti tiwin) := by
  unfold AckOk
  infer_instance

/-- The calls that keep all right. -/
def CwndCall.Ok (s : Conn) : CwndCall → Prop
  | .option mem syn rt p => mssOption mem syn p → MssOk rt s.so s.tp (ntohs mem (p + 2))
  | .sendMss rt => MssOk rt s.so s.tp 0
  | .ack ti tiwin => AckOk s.tp ti tiwin
  | _ => True

section

variable {tp : Tcpcb} {so : Socket} {rt : Rtentry} {offer : BitVec 16} {s t : Conn}

/-! ## Divisions -/

namespace Tcpcb

theorem toNat_maxseg : tp.maxseg.toNat = tp.tMaxseg.toNat := by
  have hlt := tp.tMaxseg.isLt
  rw [maxseg, BitVec.toNat_setWidth, Nat.mod_eq_of_lt (by omega)]

theorem divSeg_eq (h : 0 < tp.tMaxseg.toNat) (x : BitVec 32) : tp.divSeg x = some (x / tp.maxseg) := by
  refine if_neg ?_
  rintro hzero
  rw [hzero] at h
  exact absurd h (by decide)

theorem toNat_minWord (a b : BitVec 32) : (minWord a b).toNat = min a.toNat b.toNat := by
  rw [minWord]
  split
  · exact (min_eq_left (Nat.le_of_lt (BitVec.lt_def.mp ‹_›))).symm
  · exact (min_eq_right (Nat.not_lt.mp fun h => ‹¬ a < b› (BitVec.lt_def.mpr h))).symm

/-- The threshold is at least two segments, and at most half of what fits in a word. -/
theorem halfWindow_spec (h : 0 < tp.tMaxseg.toNat) : ∃ w, tp.halfWindow = some w ∧
    2 * tp.tMaxseg.toNat ≤ w.toNat ∧ w.toNat ≤ 2 ^ 31 := by
  have hlt := tp.tMaxseg.isLt
  have hwin : (minWord tp.sndWnd tp.sndCwnd / 2 / tp.maxseg).toNat * tp.tMaxseg.toNat ≤ 2 ^ 31 := by
    rw [BitVec.toNat_udiv, toNat_maxseg, BitVec.toNat_udiv]
    have hword := (minWord tp.sndWnd tp.sndCwnd).isLt
    refine (Nat.div_mul_le_self _ _).trans ?_
    rw [show (2 : BitVec 32).toNat = 2 from rfl]
    omega
  rw [halfWindow, divSeg_eq h, Option.bind_eq_bind, Option.bind_some]
  refine ⟨_, rfl, ?_⟩
  split
  · rw [BitVec.toNat_mul, toNat_maxseg, show (2 : BitVec 32).toNat = 2 from rfl, Nat.mod_eq_of_lt (by omega)]
    omega
  · rename_i hle
    have htwo : 2 ≤ (minWord tp.sndWnd tp.sndCwnd / 2 / tp.maxseg).toNat := Nat.not_lt.mp fun hlt => hle (BitVec.lt_def.mpr hlt)
    rw [BitVec.toNat_mul, toNat_maxseg, Nat.mod_eq_of_lt (by omega)]
    exact ⟨Nat.mul_le_mul_right _ htwo, hwin⟩

theorem maxseg_sq_lt : tp.tMaxseg.toNat * tp.tMaxseg.toNat < 2 ^ 32 :=
  (Nat.mul_lt_mul'' tp.tMaxseg.isLt tp.tMaxseg.isLt).trans_eq rfl

theorem toNat_incr (hcwnd : tp.tMaxseg.toNat ≤ tp.sndCwnd.toNat) : tp.incr.toNat =
    if tp.sndSsthresh < tp.sndCwnd then tp.tMaxseg.toNat * tp.tMaxseg.toNat / tp.sndCwnd.toNat + tp.tMaxseg.toNat / 8
    else tp.tMaxseg.toNat := by
  have hlt := tp.tMaxseg.isLt
  have hsq : tp.tMaxseg.toNat * tp.tMaxseg.toNat / tp.sndCwnd.toNat ≤ tp.tMaxseg.toNat :=
    Nat.div_le_of_le_mul (Nat.mul_le_mul_right _ hcwnd)
  rw [incr]
  split
  · rw [BitVec.toNat_add, BitVec.toNat_udiv, BitVec.toNat_udiv, BitVec.toNat_mul, toNat_maxseg, Nat.mod_eq_of_lt maxseg_sq_lt,
      show (8 : BitVec 32).toNat = 8 from rfl, Nat.mod_eq_of_lt (by omega)]
  · exact toNat_maxseg

/-- When the sum does not fit, the window gets too small. -/
theorem incr_lt_of_wrap (h : 0 < tp.tMaxseg.toNat) (hcwnd : tp.tMaxseg.toNat ≤ tp.sndCwnd.toNat)
    (hwrap : 2 ^ 32 ≤ tp.sndCwnd.toNat + tp.incr.toNat) : tp.incr.toNat ≤ tp.tMaxseg.toNat := by
  have hlt := tp.tMaxseg.isLt
  have hsq : tp.tMaxseg.toNat * tp.tMaxseg.toNat < 2 ^ 32 := maxseg_sq_lt
  rw [toNat_incr hcwnd] at hwrap ⊢
  split at hwrap
  · rw [if_pos ‹_›]
    have hle : tp.tMaxseg.toNat * tp.tMaxseg.toNat / tp.sndCwnd.toNat ≤ tp.tMaxseg.toNat :=
      Nat.div_le_of_le_mul (Nat.mul_le_mul_right _ hcwnd)
    have htwo : tp.tMaxseg.toNat * tp.tMaxseg.toNat / tp.sndCwnd.toNat < 2 :=
      (Nat.div_lt_iff_lt_mul (h.trans_le hcwnd)).mpr (by omega)
    omega
  · rw [if_neg ‹_›]

theorem le_maxWindow (hscale : tp.sndScale ≤ tcpMAXWINSHIFT) :
    tp.tMaxseg.toNat ≤ (BitVec.ofNat 32 (tcpMAXWIN <<< tp.sndScale)).toNat := by
  have hlt := tp.tMaxseg.isLt
  have hle : 2 ^ tp.sndScale ≤ 2 ^ tcpMAXWINSHIFT := Nat.pow_le_pow_right (by decide) hscale
  have hpos := Nat.two_pow_pos tp.sndScale
  rw [tcpMAXWINSHIFT] at hle
  rw [BitVec.toNat_ofNat, Nat.shiftLeft_eq, tcpMAXWIN, Nat.mod_eq_of_lt (by omega)]
  omega

/-- The window is at least a segment behind `openWindow` exactly when the sum fits. -/
theorem openWindow_iff (h : 0 < tp.tMaxseg.toNat) (hcwnd : tp.tMaxseg.toNat ≤ tp.sndCwnd.toNat)
    (hscale : tp.sndScale ≤ tcpMAXWINSHIFT) :
    tp.tMaxseg.toNat ≤ tp.openWindow.sndCwnd.toNat ↔ tp.sndCwnd.toNat + tp.incr.toNat < 2 ^ 32 := by
  have hcw := tp.sndCwnd.isLt
  have hincr := tp.incr.isLt
  rw [openWindow]
  dsimp only
  rw [toNat_minWord, le_min_iff, BitVec.toNat_add, and_iff_left (le_maxWindow hscale)]
  rcases Nat.lt_or_ge (tp.sndCwnd.toNat + tp.incr.toNat) (2 ^ 32) with hfit | hwrap
  · rw [Nat.mod_eq_of_lt hfit]
    exact iff_of_true (hcwnd.trans (Nat.le_add_right _ _)) hfit
  · have hsmall := incr_lt_of_wrap h hcwnd hwrap
    rw [Nat.mod_eq_sub_mod hwrap, Nat.mod_eq_of_lt (by omega)]
    exact iff_of_false (by omega) (by omega)

/-! ## The calls -/

variable {ti : Tcpiphdr} {tiwin : BitVec 32}

theorem CwndRight.fastRexmt (h : tp.CwndRight) (hdup : tp.tDupacks = 3) (tiAck : BitVec 32) :
    ∃ t, tp.fastRexmt tiAck = some t ∧ t.CwndRight := by
  have hlt := tp.tMaxseg.isLt
  obtain ⟨w, hw, hle, hsmall⟩ := halfWindow_spec h.maxseg
  rw [Tcpcb.fastRexmt, hw, Option.bind_eq_bind, Option.bind_some]
  refine ⟨_, rfl, h.maxseg, ?_, ?_⟩
  · dsimp only
    rw [hdup, show (3 : BitVec 16).signExtend 32 = 3 by decide, BitVec.toNat_add, BitVec.toNat_mul, toNat_maxseg,
      show (3 : BitVec 32).toNat = 3 from rfl, Nat.mod_eq_of_lt (b := 2 ^ 32) (by omega : tp.tMaxseg.toNat * 3 < 2 ^ 32),
      Nat.mod_eq_of_lt (by omega)]
    omega
  · dsimp only
    omega

theorem CwndRight.endDupacks (h : tp.CwndRight) : tp.endDupacks.CwndRight := by
  refine ⟨h.maxseg, ?_, h.ssthresh⟩
  rw [Tcpcb.endDupacks]
  dsimp only
  split
  · exact h.ssthresh
  · exact h.cwnd

theorem ackWindow_iff (h : tp.CwndRight) (hscale : tp.sndScale ≤ tcpMAXWINSHIFT) :
    (∃ t, tp.ackWindow ti tiwin = some t ∧ t.CwndRight) ↔ AckOk tp ti tiwin := by
  have hsome {u : Tcpcb} : (∃ t, some u = some t ∧ t.CwndRight) ↔ u.CwndRight := by
    constructor
    · rintro ⟨_, ⟨rfl⟩, hu⟩
      exact hu
    · exact fun hu => ⟨u, rfl, hu⟩
  have hsame (dup : BitVec 16) : Tcpcb.CwndRight { tp with tDupacks := dup } := ⟨h.maxseg, h.cwnd, h.ssthresh⟩
  rw [ackWindow, AckOk]
  by_cases hold : seqLEQ ti.tiAck tp.sndUna
  · rw [if_pos hold, if_pos hold]
    by_cases hwin : ti.tiLen = 0 ∧ tiwin = tp.sndWnd
    · rw [if_pos hwin]
      by_cases htimer : tp.tTimer .rexmt = 0 ∨ ti.tiAck ≠ tp.sndUna
      · rw [if_pos htimer, hsome]
        refine iff_of_true (hsame 0) ?_
        intro _ _ hne heq
        exact absurd htimer (not_or.mpr ⟨hne, not_not.mpr heq⟩)
      rw [if_neg htimer]
      obtain ⟨hne, heq⟩ := not_or.mp htimer
      dsimp only
      split_ifs with hthree hmore
      · have hdup : tp.tDupacks + 1 = 3 := BitVec.eq_of_toInt_eq hthree
        refine iff_of_true ((hsame (tp.tDupacks + 1)).fastRexmt hdup ti.tiAck) ?_
        intro _ _ _ _ hlt
        exact absurd hlt hthree.not_gt
      · have hlt := tp.tMaxseg.isLt
        have hcw := tp.sndCwnd.isLt
        have hcwnd := h.cwnd
        rw [hsome]
        constructor
        · intro hu _ _ _ _ _
          have hadd := hu.cwnd
          dsimp only at hadd
          rw [BitVec.toNat_add, toNat_maxseg] at hadd
          dsimp only at hadd
          omega
        · intro hok
          have hfit := hok hwin.1 hwin.2 hne (not_not.mp heq) hmore
          refine ⟨h.maxseg, ?_, h.ssthresh⟩
          dsimp only
          rw [BitVec.toNat_add, toNat_maxseg, Nat.mod_eq_of_lt hfit]
          exact Nat.le_add_left _ _
      · rw [hsome]
        refine iff_of_true (hsame _) ?_
        intro _ _ _ _ hlt
        exact absurd hlt hmore
    · rw [if_neg hwin, hsome]
      refine iff_of_true (hsame 0) ?_
      intro hlen hw
      exact absurd ⟨hlen, hw⟩ hwin
  · have hend := h.endDupacks
    rw [if_neg hold, if_neg hold]
    by_cases hmax : seqGT ti.tiAck tp.sndMax
    · rw [if_pos hmax, hsome]
      exact iff_of_true hend fun hnot => absurd hmax hnot
    · rw [if_neg hmax, hsome, imp_iff_right hmax, ← openWindow_iff hend.maxseg hend.cwnd hscale]
      exact ⟨CwndRight.cwnd, fun hcwnd => ⟨hend.maxseg, hcwnd, hend.ssthresh⟩⟩

end Tcpcb

theorem le_mssOffered (rt : Rtentry) (offer : BitVec 16) : 32 ≤ mssOffered rt offer := by
  rw [mssOffered]
  omega

theorem mssLimit_lt (rt : Rtentry) : mssLimit rt < 2 ^ 31 := by
  have hmtu := BitVec.toInt_lt (x := rt.rtRmx.rmxMtu - sizeofTcpiphdr)
  have hif := BitVec.toInt_lt (x := rt.ifMtu - sizeofTcpiphdr)
  rw [mssLimit]
  dsimp only
  have hmod := Int.emod_nonneg (rt.ifMtu - sizeofTcpiphdr).toInt (show ((mCLBYTES : ℕ) : ℤ) ≠ 0 by decide)
  split_ifs <;> omega

theorem mssOffered_lt (rt : Rtentry) (offer : BitVec 16) : mssOffered rt offer < 2 ^ 31 := by
  have hlt := mssLimit_lt rt
  rw [mssOffered]
  split <;> omega

/-- A size that is set fits in 16 bits. -/
theorem MssSets.lt (h : MssSets rt tp offer) : mssOffered rt offer < 2 ^ 16 := by
  have hmax := tp.tMaxseg.isLt
  have hoffer := offer.isLt
  rcases h with h | h
  · omega
  · rw [mssOffered, if_pos h]
    omega

theorem tcpMssTimes_same (rmx : RtMetrics) (tp : Tcpcb) : (tcpMssTimes rmx tp).tMaxseg = tp.tMaxseg ∧
    (tcpMssTimes rmx tp).sndSsthresh = tp.sndSsthresh := by
  rw [tcpMssTimes]
  dsimp only
  split <;> exact ⟨rfl, rfl⟩

/-- The threshold behind `tcp_mss`. -/
def mssSsthresh (rt : Rtentry) (tp : Tcpcb) (mss : ℕ) : BitVec 32 :=
  if rt.rtRmx.rmxSsthresh ≠ 0 then BitVec.ofNat 32 (max (2 * mss) rt.rtRmx.rmxSsthresh.toNat) else tp.sndSsthresh

/-- `tcp_mss` sets the size. -/
theorem tcpMss_sets (so : Socket) (h : MssSets rt tp offer) : ∃ k, k = min (mssOffered rt offer) (mssBufsize rt so).toNat ∧
    (tcpMss (some rt) so tp offer).2.2.tMaxseg = BitVec.ofNat 16 k ∧
    (tcpMss (some rt) so tp offer).2.2.sndCwnd = BitVec.ofNat 32 k ∧
    (tcpMss (some rt) so tp offer).2.2.sndSsthresh = mssSsthresh rt tp k := by
  obtain ⟨hmax, hss⟩ := tcpMssTimes_same rt.rtRmx tp
  rw [MssSets, ← hmax] at h
  refine ⟨_, rfl, ?_⟩
  rw [tcpMss, mssSsthresh, ← hss]
  dsimp only
  rw [if_pos h]
  rcases Nat.lt_or_ge (mssBufsize rt so).toNat (mssOffered rt offer) with hbuf | hbuf
  · rw [if_pos hbuf, Nat.min_eq_right hbuf.le]
    exact ⟨rfl, rfl, rfl⟩
  · rw [if_neg (Nat.not_lt.mpr hbuf), Nat.min_eq_left hbuf]
    exact ⟨rfl, rfl, rfl⟩

/-- `tcp_mss` does not set the size. -/
theorem tcpMss_keeps (so : Socket) (h : ¬ MssSets rt tp offer) :
    (tcpMss (some rt) so tp offer).2.2.tMaxseg = tp.tMaxseg ∧
    (tcpMss (some rt) so tp offer).2.2.sndCwnd = BitVec.ofNat 32 (mssOffered rt offer) ∧
    (tcpMss (some rt) so tp offer).2.2.sndSsthresh = mssSsthresh rt tp (mssOffered rt offer) := by
  obtain ⟨hmax, hss⟩ := tcpMssTimes_same rt.rtRmx tp
  rw [MssSets, ← hmax] at h
  rw [tcpMss, mssSsthresh, ← hss]
  dsimp only
  rw [if_neg h]
  exact ⟨hmax, rfl, rfl⟩

theorem le_mssSsthresh_iff {k n : ℕ} (hk : k < 2 ^ 31) (hn : n ≤ k) :
    n ≤ (mssSsthresh rt tp k).toNat ↔ (rt.rtRmx.rmxSsthresh = 0 → n ≤ tp.sndSsthresh.toNat) := by
  have hrmx := rt.rtRmx.rmxSsthresh.isLt
  rw [mssSsthresh]
  split
  · rename_i hne
    rw [BitVec.toNat_ofNat, Nat.mod_eq_of_lt (by omega)]
    exact iff_of_true (by omega) fun hzero => absurd hzero hne
  · rename_i hzero
    exact (imp_iff_right (not_not.mp hzero)).symm

/-- `tcp_mss` keeps all right exactly when it is called so. -/
theorem Conn.mss_iff (h : s.tp.CwndRight) (rt : Option Rtentry) (offer : BitVec 16) :
    (∃ t, s.mss rt offer = some t ∧ t.tp.CwndRight) ↔ MssOk rt s.so s.tp offer := by
  cases rt with
  | none =>
      refine iff_of_true ⟨s, ?_, h⟩ ?_
      · rw [Conn.mss, if_pos]
        · rfl
        · intro r hr
          cases hr
      · intro r hr
        cases hr
  | some rt =>
      rw [Conn.mss, MssOk]
      simp only [Option.mem_some_iff, forall_eq']
      have hle := le_mssOffered rt offer
      have hlt := mssOffered_lt rt offer
      by_cases hset : MssSets rt s.tp offer
      · obtain ⟨k, hk, hmax, hcwnd, hss⟩ := tcpMss_sets s.so hset
        have hlt' := hset.lt
        simp only [imp_iff_right hset, ← hk]
        by_cases hzero : mssBufsize rt s.so = 0
        · -- the size is 0, if the call returns at all
          have hkzero : k = 0 := by
            rw [hk, hzero]
            exact Nat.min_zero _
          refine iff_of_false ?_ fun hok => hok.1 hzero
          rintro ⟨t, ht, hright⟩
          split_ifs at ht
          obtain rfl := Option.some.inj ht
          have hpos := hright.maxseg
          dsimp only at hpos
          rw [hmax, hkzero] at hpos
          exact absurd hpos (by decide)
        · have hpos : 0 < (mssBufsize rt s.so).toNat :=
            Nat.pos_of_ne_zero fun hnat => hzero (BitVec.eq_of_toNat_eq hnat)
          have hthresh : k ≤ (mssSsthresh rt s.tp k).toNat ↔
              (rt.rtRmx.rmxSsthresh = 0 → k ≤ s.tp.sndSsthresh.toNat) :=
            le_mssSsthresh_iff (by omega) (Nat.le_refl k)
          rw [if_pos fun hbuf => absurd hbuf hzero, ← hthresh, and_iff_right hzero]
          have hmax' : (BitVec.ofNat 16 k).toNat = k := by
            rw [BitVec.toNat_ofNat, Nat.mod_eq_of_lt (by omega)]
          have hcwnd' : (BitVec.ofNat 32 k).toNat = k := by
            rw [BitVec.toNat_ofNat, Nat.mod_eq_of_lt (by omega)]
          constructor
          · rintro ⟨_, ⟨rfl⟩, hright⟩
            have hthresh := hright.ssthresh
            dsimp only at hthresh
            rwa [hmax, hss, hmax'] at hthresh
          · intro hthresh
            refine ⟨_, rfl, ?_, ?_, ?_⟩
            · dsimp only
              rw [hmax, hmax']
              omega
            · dsimp only
              rw [hmax, hmax', hcwnd, hcwnd']
            · dsimp only
              rwa [hmax, hss, hmax']
      · obtain ⟨hmax, hcwnd, hss⟩ := tcpMss_keeps s.so hset
        have hmss := not_or.mp hset
        rw [if_pos fun hset' => absurd hset' hset]
        refine iff_of_true ⟨_, rfl, ?_, ?_, ?_⟩ fun hset' => absurd hset' hset
        · dsimp only
          rw [hmax]
          exact h.maxseg
        · dsimp only
          rw [hmax, hcwnd, BitVec.toNat_ofNat, Nat.mod_eq_of_lt (by omega)]
          exact Nat.not_lt.mp hmss.1
        · dsimp only
          rw [hmax, hss, le_mssSsthresh_iff hlt (Nat.not_lt.mp hmss.1)]
          exact fun _ => h.ssthresh

/-! ## The scale of the window -/

/-- The scales are in their range. -/
structure Tcpcb.ScaleRight (tp : Tcpcb) : Prop where
  sndScale : tp.sndScale ≤ tcpMAXWINSHIFT
  requestedSScale : tp.requestedSScale ≤ tcpMAXWINSHIFT

namespace Tcpcb.ScaleRight

theorem of_same {u : Tcpcb} (h : tp.ScaleRight) (hs : u.sndScale = tp.sndScale) (hr : u.requestedSScale = tp.requestedSScale) :
    u.ScaleRight := ⟨hs ▸ h.sndScale, hr ▸ h.requestedSScale⟩

theorem tcpMss (h : tp.ScaleRight) (rt : Option Rtentry) (so : Socket) (offer : BitVec 16) :
    (tcpMss rt so tp offer).2.2.ScaleRight := by
  cases rt with
  | none => exact h
  | some rt =>
      have htimes : (tcpMssTimes rt.rtRmx tp).ScaleRight := by
        rw [tcpMssTimes]
        dsimp only
        split
        · exact h.of_same rfl rfl
        · exact h
      rw [Net.tcpMss]
      dsimp only
      split
      · exact htimes.of_same rfl rfl
      · exact htimes.of_same rfl rfl

theorem option (h : tp.ScaleRight) (mem : ℕ → Byte) (syn : Bool) (rt : Option Rtentry) (p : ℕ) (r : OptionState)
    (hr : r.tp = tp) : (tcpDooption mem syn rt p r).1.tp.ScaleRight := by
  subst hr
  rw [tcpDooption]
  dsimp only
  generalize (if optionUsed mem syn p = true then [p] else []) = used
  split_ifs
  · exact h
  · exact h
  · exact h.tcpMss rt r.so _
  · exact ⟨h.sndScale, Nat.min_le_right _ _⟩
  · exact h
  · exact h

theorem ackWindow {u : Tcpcb} (h : tp.ScaleRight) (hu : tp.ackWindow ti tiwin = some u) : u.ScaleRight := by
  rw [Tcpcb.ackWindow] at hu
  dsimp only at hu
  split_ifs at hu
  · obtain rfl := Option.some.inj hu
    exact h.of_same rfl rfl
  · obtain ⟨w, -, hw⟩ := Option.bind_eq_some_iff.mp hu
    obtain rfl := Option.some.inj hw
    exact h.of_same rfl rfl
  all_goals
    obtain rfl := Option.some.inj hu
    exact h.of_same rfl rfl

end Tcpcb.ScaleRight

theorem Conn.mss_scale {rt : Option Rtentry} (h : s.tp.ScaleRight) (ht : s.mss rt offer = some t) : t.tp.ScaleRight := by
  rw [Conn.mss] at ht
  split_ifs at ht
  obtain rfl := Option.some.inj ht
  exact h.tcpMss rt s.so offer

/-- Every call keeps the scales. -/
theorem Conn.call_scale {c : CwndCall} (h : s.tp.ScaleRight) (ht : s.call c = some t) : t.tp.ScaleRight := by
  cases c with
  | option mem syn rt p =>
      rw [Conn.call, Conn.option] at ht
      split_ifs at ht
      · exact Conn.mss_scale h ht
      · obtain rfl := Option.some.inj ht
        exact h.option mem syn rt p _ rfl
  | sendMss rt => exact Conn.mss_scale h ht
  | ack ti tiwin =>
      obtain ⟨u, hu, rfl⟩ := Option.map_eq_some_iff.mp ht
      exact h.ackWindow hu
  | scale =>
      obtain rfl := Option.some.inj ht
      exact ⟨h.requestedSScale, h.requestedSScale⟩
  | rexmt =>
      obtain ⟨u, hu, rfl⟩ := Option.map_eq_some_iff.mp ht
      obtain ⟨w, -, hw⟩ := Option.bind_eq_some_iff.mp hu
      obtain rfl := Option.some.inj hw
      exact h.of_same rfl rfl
  | outputIdle =>
      obtain rfl := Option.some.inj ht
      rw [Tcpcb.outputIdle]
      dsimp only
      split
      · exact h.of_same rfl rfl
      · exact h
  | close rmx i =>
      obtain ⟨-, -, rfl⟩ := Option.map_eq_some_iff.mp ht
      exact h
  | setSndbuf | setRcvbuf | quench | other =>
      obtain rfl := Option.some.inj ht
      exact h.of_same rfl rfl

/-! ## Main results -/

/-- An option that is no segment size leaves the window as it is. -/
theorem tcpDooption_cwnd {mem : ℕ → Byte} {syn : Bool} {p : ℕ} (hopt : ¬ mssOption mem syn p) (rt : Option Rtentry)
    (r : OptionState) (h : r.tp.CwndRight) : (tcpDooption mem syn rt p r).1.tp.CwndRight := by
  rw [tcpDooption]
  dsimp only
  generalize (if optionUsed mem syn p = true then [p] else []) = used
  split_ifs with heol hlen hmss
  · exact h
  · exact h
  · refine absurd ?_ hopt
    rw [mssOption, decide_eq_true_eq]
    exact ⟨heol, hlen, hmss⟩
  · exact ⟨h.maxseg, h.cwnd, h.ssthresh⟩
  · exact h
  · exact h

/-- A call keeps all right exactly when it is one of those that do. -/
theorem Conn.call_iff (h : s.tp.CwndRight) (hscale : s.tp.ScaleRight) (c : CwndCall) :
    (∃ t, s.call c = some t ∧ t.tp.CwndRight) ↔ c.Ok s := by
  have hmaxseg : s.tp.tMaxseg.toNat ≤ s.tp.maxseg.toNat := Tcpcb.toNat_maxseg.ge
  cases c with
  | option mem syn rt p =>
      rw [Conn.call, Conn.option, CwndCall.Ok]
      by_cases hopt : mssOption mem syn p
      · rw [if_pos hopt, imp_iff_right hopt]
        exact Conn.mss_iff h rt _
      · rw [if_neg hopt]
        exact iff_of_true ⟨_, rfl, tcpDooption_cwnd hopt rt _ h⟩ fun hopt' => absurd hopt' hopt
  | sendMss rt => exact Conn.mss_iff h rt 0
  | ack ti tiwin =>
      rw [CwndCall.Ok, ← Tcpcb.ackWindow_iff h hscale.sndScale]
      constructor
      · rintro ⟨t, ht, hright⟩
        obtain ⟨u, hu, rfl⟩ := Option.map_eq_some_iff.mp ht
        exact ⟨u, hu, hright⟩
      · rintro ⟨u, hu, hright⟩
        exact ⟨_, Option.map_eq_some_iff.mpr ⟨u, hu, rfl⟩, hright⟩
  | rexmt =>
      obtain ⟨w, hw, hle, -⟩ := Tcpcb.halfWindow_spec h.maxseg
      have hseg : s.tp.tMaxseg.toNat ≤ w.toNat := by omega
      rw [Conn.call, Tcpcb.rexmt, hw]
      exact iff_of_true ⟨_, rfl, h.maxseg, hmaxseg, hseg⟩ trivial
  | quench => exact iff_of_true ⟨_, rfl, h.maxseg, hmaxseg, h.ssthresh⟩ trivial
  | outputIdle =>
      refine iff_of_true ⟨_, rfl, ?_⟩ trivial
      rw [Tcpcb.outputIdle]
      dsimp only
      split
      · exact ⟨h.maxseg, hmaxseg, h.ssthresh⟩
      · exact h
  | close rmx i =>
      refine iff_of_true ⟨s, ?_, h⟩ trivial
      rw [Conn.call, Tcpcb.closeSsthresh, Tcpcb.divSeg_eq h.maxseg]
      rfl
  | setSndbuf | setRcvbuf | scale | other =>
      exact iff_of_true ⟨_, rfl, h.maxseg, h.cwnd, h.ssthresh⟩ trivial

theorem cwndRight_new : tcpNewtcpcb.CwndRight := ⟨by decide, by decide, by decide⟩

/-- In a run, a segment has a size, the window and the threshold are not less, and nothing is divided by 0, exactly
when all calls are such that they keep it so. -/
theorem cwndRight_iff (so : Socket) (cs : List CwndCall) :
    KeepsAll Conn.call (fun s => s.tp.CwndRight) ⟨so, tcpNewtcpcb⟩ cs ↔
      AllCalls Conn.call CwndCall.Ok ⟨so, tcpNewtcpcb⟩ cs := by
  refine keepsAll_iff_of_inv (fun s : Conn => s.tp.CwndRight ∧ s.tp.ScaleRight) (fun s h => h.1) ?_ ?_
    ⟨cwndRight_new, Nat.zero_le _, Nat.zero_le _⟩ cs
    (.of_forall (fun _ _ => True.intro) _ cs)
  · rintro s c ⟨hright, hscale⟩ - hok
    obtain ⟨t, ht, hright'⟩ := (Conn.call_iff hright hscale c).mpr hok
    exact ⟨t, ht, hright', Conn.call_scale hscale ht⟩
  · rintro s c t ⟨hright, hscale⟩ - hnot ht hright'
    exact hnot ((Conn.call_iff hright hscale c).mp ⟨t, ht, hright'⟩)

/-- A host on an Ethernet, without a route that knows anything. -/
def etherRoute : Rtentry := ⟨⟨false, 0, 0, 0, 0, 0, 0⟩, 1500, true⟩

/-- The option for segments of 1460 bytes. -/
def mss1460 (p : ℕ) : Byte := [2, 4, 5, 180].getD p 0

/-- `SO_SNDBUF` makes the send buffer empty before the option comes. -/
def emptyBufCalls : List CwndCall := [.setSndbuf 0, .option mss1460 true (some etherRoute) 0]

/-- A SYN is sent again before the option comes. -/
def lateOptionCalls : List CwndCall :=
  [.sendMss (some etherRoute), .rexmt, .option mss1460 true (some etherRoute) 0]

/-- Without a send buffer a size is rounded to a multiple of 0. And a threshold for segments of 512 bytes is less than
one of 1460 bytes. -/
theorem cwnd_can_fail : ¬ (∀ so, KeepsAll Conn.call (fun s => s.tp.CwndRight) ⟨so, tcpNewtcpcb⟩ emptyBufCalls) ∧
    ¬ ∀ so cs, KeepsAll Conn.call (fun s => s.tp.CwndRight) ⟨so, tcpNewtcpcb⟩ cs := by
  constructor
  · intro hall
    obtain ⟨t, ht, -⟩ := (hall attachedSocket).last
    have hnone : (runCalls Conn.call ⟨attachedSocket, tcpNewtcpcb⟩ emptyBufCalls).isSome = false := by decide +kernel
    rw [ht] at hnone
    exact absurd hnone (by simp)
  · intro hall
    obtain ⟨t, ht, hright⟩ := (hall attachedSocket lateOptionCalls).last
    have hsizes : (runCalls Conn.call ⟨attachedSocket, tcpNewtcpcb⟩ lateOptionCalls).map
        (fun t => (t.tp.tMaxseg.toNat, t.tp.sndSsthresh.toNat)) = some (1460, 1024) := by decide +kernel
    rw [ht] at hsizes
    obtain ⟨hmax, hthresh⟩ := Prod.mk.inj (Option.some.inj hsizes)
    have hle := hright.ssthresh
    omega

end

end Shaunos.Net
