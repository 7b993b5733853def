import Mathlib
import Shaunos.Common.Run
import Shaunos.Common.Serial
import Shaunos.Net.Tcp

/-!
# The window that is announced

Reference: `Kernel/netinet/tcp_output.c`, `Kernel/netinet/tcp_input.c`.

`tcp_output` announces `win` bytes from `rcv_nxt` on, in units of `1 << rcv_scale` bytes that are rounded
down, and sets `rcv_adv` to the edge before it was rounded. The next window goes at least up to `rcv_adv`, but
it is rounded from another `rcv_nxt`.

* `WindowInv.output` — what an announcement does to the edge, and when the edge goes back;
* `edgesRight_iff` — when the edge never goes back.
-/

namespace Shaunos.Net

/-! ## The code -/

/-- `win` in `tcp_output`, from the space in the buffer: no silly window, and no more than fits in `ti_win`. -/
def spaceWin (so : Socket) (tp : Tcpcb) : ℤ :=
  let win := sbspace so.soRcv
  let win := if win < (so.soRcv.sbHiwat.toNat / 4 : ℕ) ∧ win < tp.tMaxseg.toNat then 0 else win
  if win > (tcpMAXWIN <<< tp.rcvScale : ℕ) then (tcpMAXWIN <<< tp.rcvScale : ℕ) else win

/-- `win` before it is shifted. It goes up to `rcv_adv`. -/
def outputWin (so : Socket) (tp : Tcpcb) : ℤ :=
  let win := spaceWin so tp
  if win < (tp.rcvAdv - tp.rcvNxt).toInt then (tp.rcvAdv - tp.rcvNxt).toInt else win

/-- `ti_win`. -/
def tiWin (so : Socket) (tp : Tcpcb) : BitVec 16 := BitVec.ofInt 16 (outputWin so tp >>> tp.rcvScale)

/-- The end of `tcp_output`. -/
def outputEnd (so : Socket) (tp : Tcpcb) : Tcpcb :=
  let win := outputWin so tp
  { tp with
    rcvAdv := if 0 < win ∧ seqGT (tp.rcvNxt + BitVec.ofInt 32 win) tp.rcvAdv
      then tp.rcvNxt + BitVec.ofInt 32 win else tp.rcvAdv
    lastAckSent := tp.rcvNxt
    tfAckNow := false
    tfDelAck := false }

/-- `tcp_rcvseqinit`. -/
def tcpRcvseqinit (tp : Tcpcb) (irs : BitVec 32) : Tcpcb :=
  { tp with irs := irs, rcvAdv := irs + 1, rcvNxt := irs + 1 }

/-! ## Runs -/

/-- A connection, and the right edges that it announced, the last one first. -/
structure WindowLog where
  so : Socket
  tp : Tcpcb
  edges : List (BitVec 32)

/-- The right edge that the peer sees: `rcv_nxt + (ti_win << rcv_scale)`. -/
def WindowLog.edge (s : WindowLog) : BitVec 32 :=
  s.tp.rcvNxt + BitVec.ofNat 32 ((tiWin s.so s.tp).toNat <<< s.tp.rcvScale)

/-- What happens on a connection that matters to the window. -/
inductive WindowCall where
  /-- `tcp_output` emits a segment. -/
  | tcpOutput
  /-- `tcp_input` moves `rcv_nxt`, by the length of what comes in order and the FIN. -/
  | received (n : ℕ)
  /-- Data is put in the receive buffer, the application reads, or options and the route change. -/
  | buffer (soRcv : SockBuf) (tMaxseg : BitVec 16)
  /-- `tcp_input` sets `rcv_scale`. -/
  | scale (requestRScale : ℕ)

/-- One step. -/
def WindowLog.step (s : WindowLog) : WindowCall → Option WindowLog
  | .tcpOutput => some { s with tp := outputEnd s.so s.tp, edges := s.edge :: s.edges }
  | .received n => some { s with tp := { s.tp with rcvNxt := s.tp.rcvNxt + BitVec.ofNat 32 n } }
  | .buffer soRcv tMaxseg => some { s with
      so := { s.so with soRcv := soRcv }, tp := { s.tp with tMaxseg := tMaxseg } }
  | .scale requestRScale => some { s with tp := { s.tp with rcvScale := requestRScale } }

/-- A connection that knows where the peer starts. -/
def windowStart (so : Socket) (tp : Tcpcb) (irs : BitVec 32) : WindowLog where
  so := so
  tp := tcpRcvseqinit tp irs
  edges := []

/-- A scale that is agreed on is one that TCP allows. -/
def WindowCall.Fits (s : WindowLog) : WindowCall → Prop
  | .scale requestRScale => s.tp.rcvScale ≤ requestRScale ∧ requestRScale ≤ tcpMAXWINSHIFT
  | _ => True

/-- `rcv_nxt` does not get so far ahead of what was announced that sequence numbers wrap around. -/
def WindowCall.NoWrap (s : WindowLog) : WindowCall → Prop
  | .received n => n ≤ (s.tp.rcvAdv - s.tp.rcvNxt).toInt + 2 ^ 29
  | _ => True

/-- The next multiple of `1 << scale`. -/
def roundUp (scale : ℕ) (x : ℤ) : ℤ := -(-x / 2 ^ scale) * 2 ^ scale

/-- What is left of the last announcement, rounded up, still fits in the space or before `rcv_adv`. -/
def WindowCall.Ok (s : WindowLog) : WindowCall → Prop
  | .tcpOutput => ∀ e ∈ s.edges.head?,
      roundUp s.tp.rcvScale (e - s.tp.rcvNxt).toInt ≤ spaceWin s.so s.tp ∨
        roundUp s.tp.rcvScale (e - s.tp.rcvNxt).toInt ≤ (s.tp.rcvAdv - s.tp.rcvNxt).toInt
  | _ => True

instance WindowCall.decidableFits (s : WindowLog) : (c : WindowCall) → Decidable (c.Fits s)
  | .tcpOutput | .received _ | .buffer _ _ => isTrue trivial
  | .scale requestRScale =>
      inferInstanceAs (Decidable (s.tp.rcvScale ≤ requestRScale ∧ requestRScale ≤ tcpMAXWINSHIFT))

instance WindowCall.decidableNoWrap (s : WindowLog) : (c : WindowCall) → Decidable (c.NoWrap s)
  | .received n => inferInstanceAs (Decidable (n ≤ (s.tp.rcvAdv - s.tp.rcvNxt).toInt + 2 ^ 29))
  | .tcpOutput | .buffer _ _ | .scale _ => isTrue trivial

instance WindowCall.decidableOk (s : WindowLog) : (c : WindowCall) → Decidable (c.Ok s)
  -- the instance for words would try all of them
  | .tcpOutput => Option.decidableForallMem s.edges.head?
  | .received _ | .buffer _ _ | .scale _ => isTrue trivial

/-- The right edge never moves backwards. -/
def EdgesRight (s : WindowLog) : Prop := s.edges.IsChain fun later earlier => seqGEQ later earlier

/-! ## One announcement -/

section

variable (so : Socket) (tp : Tcpcb)

theorem spaceWin_nonneg : 0 ≤ spaceWin so tp := by
  have hmax : (0 : ℤ) ≤ (tcpMAXWIN <<< tp.rcvScale : ℕ) := Int.natCast_nonneg _
  simp only [spaceWin]
  split_ifs <;> omega

theorem spaceWin_le : spaceWin so tp ≤ tcpMAXWIN * 2 ^ tp.rcvScale := by
  have hshift : ((tcpMAXWIN <<< tp.rcvScale : ℕ) : ℤ) = tcpMAXWIN * 2 ^ tp.rcvScale := by
    rw [Nat.shiftLeft_eq]
    push_cast
    rfl
  rw [← hshift]
  simp only [spaceWin]
  split_ifs <;> omega

theorem outputWin_eq : outputWin so tp = max (spaceWin so tp) (tp.rcvAdv - tp.rcvNxt).toInt := by
  simp only [outputWin]
  split_ifs <;> omega

/-- What fits rounded up also fits once the window is rounded down. -/
theorem roundUp_le_iff (scale : ℕ) (x w : ℤ) : roundUp scale x ≤ w ↔ x ≤ w / 2 ^ scale * 2 ^ scale := by
  have hpos : (0 : ℤ) < 2 ^ scale := by positivity
  calc roundUp scale x ≤ w ↔ -(-x / 2 ^ scale) ≤ w / 2 ^ scale := (Int.le_ediv_iff_mul_le hpos).symm
    _ ↔ -(w / 2 ^ scale) ≤ -x / 2 ^ scale := neg_le
    _ ↔ -(w / 2 ^ scale) * 2 ^ scale ≤ -x := Int.le_ediv_iff_mul_le hpos
    _ ↔ x ≤ w / 2 ^ scale * 2 ^ scale := by rw [neg_mul, neg_le_neg_iff]

end

/-- How far `rcv_adv` and the edge are from `rcv_nxt`. -/
structure WindowInv (s : WindowLog) : Prop where
  scale : s.tp.rcvScale ≤ tcpMAXWINSHIFT
  lo : -2 ^ 29 ≤ (s.tp.rcvAdv - s.tp.rcvNxt).toInt
  hi : (s.tp.rcvAdv - s.tp.rcvNxt).toInt ≤ tcpMAXWIN * 2 ^ s.tp.rcvScale
  near : ∀ e ∈ s.edges.head?, (e - s.tp.rcvNxt).toInt ≤ max (s.tp.rcvAdv - s.tp.rcvNxt).toInt 0 ∧
    (s.tp.rcvAdv - s.tp.rcvNxt).toInt - 2 ^ tcpMAXWINSHIFT ≤ (e - s.tp.rcvNxt).toInt
  right : EdgesRight s

namespace WindowInv

variable {s : WindowLog} (h : WindowInv s)
include h

theorem pow_le : (2 : ℤ) ^ s.tp.rcvScale ≤ 2 ^ 14 := pow_le_pow_right₀ (by norm_num) h.scale

/-- The window, in bounds. -/
theorem outputWin_mem : 0 ≤ outputWin s.so s.tp ∧ outputWin s.so s.tp ≤ tcpMAXWIN * 2 ^ s.tp.rcvScale ∧
    (s.tp.rcvAdv - s.tp.rcvNxt).toInt ≤ outputWin s.so s.tp := by
  rw [outputWin_eq]
  exact ⟨(spaceWin_nonneg s.so s.tp).trans (le_max_left _ _), max_le (spaceWin_le s.so s.tp) h.hi,
    le_max_right _ _⟩

theorem outputWin_lt : outputWin s.so s.tp < 2 ^ 30 := by
  have hhi := h.outputWin_mem.2.1
  have hpow : (tcpMAXWIN : ℤ) * 2 ^ s.tp.rcvScale ≤ tcpMAXWIN * 2 ^ 14 :=
    mul_le_mul_of_nonneg_left h.pow_le (Int.natCast_nonneg _)
  have hmax : (tcpMAXWIN : ℤ) * 2 ^ 14 < 2 ^ 30 := by norm_num [tcpMAXWIN]
  exact (hhi.trans hpow).trans_lt hmax

/-- The edge is the window rounded down. -/
theorem edge_sub : (s.edge - s.tp.rcvNxt).toInt =
    outputWin s.so s.tp / 2 ^ s.tp.rcvScale * 2 ^ s.tp.rcvScale := by
  have ⟨hlo, hhi, _⟩ := h.outputWin_mem
  have hlt := h.outputWin_lt
  have hpos : (0 : ℤ) < 2 ^ s.tp.rcvScale := by positivity
  set w := outputWin s.so s.tp with hw
  have hq0 : 0 ≤ w / 2 ^ s.tp.rcvScale := Int.ediv_nonneg hlo hpos.le
  have hq : w / 2 ^ s.tp.rcvScale ≤ tcpMAXWIN := Int.ediv_le_of_le_mul hpos hhi
  have hwin : ((tiWin s.so s.tp).toNat : ℤ) = w / 2 ^ s.tp.rcvScale := by
    rw [tiWin, ← hw, Int.shiftRight_eq_div_pow, BitVec.toNat_ofInt]
    rw [tcpMAXWIN] at hq
    push_cast
    omega
  have hofNat : BitVec.ofNat 32 ((tiWin s.so s.tp).toNat <<< s.tp.rcvScale) =
      BitVec.ofInt 32 (w / 2 ^ s.tp.rcvScale * 2 ^ s.tp.rcvScale) := by
    rw [← hwin, Nat.shiftLeft_eq, ← BitVec.ofInt_natCast]
    push_cast
    rfl
  have hle : w / 2 ^ s.tp.rcvScale * 2 ^ s.tp.rcvScale ≤ w := Int.ediv_mul_le w hpos.ne'
  have hnonneg : 0 ≤ w / 2 ^ s.tp.rcvScale * 2 ^ s.tp.rcvScale := mul_nonneg hq0 hpos.le
  rw [WindowLog.edge, hofNat]
  exact toInt_add_sub s.tp.rcvNxt (by omega) (by omega)

/-- The window is rounded down by less than one unit. -/
theorem lt_edge_sub : outputWin s.so s.tp - 2 ^ s.tp.rcvScale < (s.edge - s.tp.rcvNxt).toInt := by
  have hpos : (0 : ℤ) < 2 ^ s.tp.rcvScale := by positivity
  rw [h.edge_sub]
  have hmod := Int.emod_lt_of_pos (outputWin s.so s.tp) hpos
  have hdiv := Int.mul_ediv_add_emod (outputWin s.so s.tp) (2 ^ s.tp.rcvScale)
  rw [mul_comm] at hdiv
  omega

/-- An announcement does not move the edge back exactly when it does right. -/
theorem edge_iff :
    (∀ e ∈ s.edges.head?, seqGEQ s.edge e) ↔ WindowCall.Ok s .tcpOutput := by
  refine forall₂_congr fun e he => ?_
  have ⟨hmax, hnear⟩ := h.near e he
  have ⟨hlo, hhi, hadv⟩ := h.outputWin_mem
  have hlt := h.outputWin_lt
  have hpos : (0 : ℤ) < 2 ^ s.tp.rcvScale := by positivity
  have hedge := h.edge_sub
  have hle : outputWin s.so s.tp / 2 ^ s.tp.rcvScale * 2 ^ s.tp.rcvScale ≤ outputWin s.so s.tp :=
    Int.ediv_mul_le _ hpos.ne'
  have hnonneg : 0 ≤ outputWin s.so s.tp / 2 ^ s.tp.rcvScale * 2 ^ s.tp.rcvScale :=
    mul_nonneg (Int.ediv_nonneg hlo hpos.le) hpos.le
  have hlow := h.lo
  rw [tcpMAXWINSHIFT] at hnear
  have hdist : (s.edge - e).toInt = outputWin s.so s.tp / 2 ^ s.tp.rcvScale * 2 ^ s.tp.rcvScale -
      (e - s.tp.rcvNxt).toInt := by
    refine toInt_sub_sub s.tp.rcvNxt hedge rfl ?_ ?_
    · omega
    · omega
  rw [seqGEQ, hdist, sub_nonneg, ← roundUp_le_iff, outputWin_eq, le_max_iff]

/-- Where `rcv_adv` is behind an announcement. -/
theorem outputEnd_sub : ((outputEnd s.so s.tp).rcvAdv - s.tp.rcvNxt).toInt =
    if 0 < outputWin s.so s.tp then outputWin s.so s.tp else (s.tp.rcvAdv - s.tp.rcvNxt).toInt := by
  have ⟨hlo, _, hadv⟩ := h.outputWin_mem
  have hlt := h.outputWin_lt
  have hlow := h.lo
  have hnew : (s.tp.rcvNxt + BitVec.ofInt 32 (outputWin s.so s.tp) - s.tp.rcvNxt).toInt =
      outputWin s.so s.tp := toInt_add_sub s.tp.rcvNxt (by omega) (by omega)
  have hdist := toInt_sub_sub s.tp.rcvNxt hnew (show (s.tp.rcvAdv - s.tp.rcvNxt).toInt = _ from rfl)
    (by omega) (by omega)
  simp only [outputEnd, seqGT, hdist]
  split_ifs with hif hpos hpos
  · exact hnew
  · exact absurd hif.1 hpos
  · omega
  · rfl

/-- `tcp_output`. -/
theorem output (hok : WindowCall.Ok s .tcpOutput) :
    WindowInv { s with tp := outputEnd s.so s.tp, edges := s.edge :: s.edges } := by
  have ⟨hlo, hhi, hadv⟩ := h.outputWin_mem
  have hlow := h.lo
  have hpow := h.pow_le
  have hpos : (0 : ℤ) < 2 ^ s.tp.rcvScale := by positivity
  have hend := h.outputEnd_sub
  have hless := h.lt_edge_sub
  have hle : (s.edge - s.tp.rcvNxt).toInt ≤ outputWin s.so s.tp := by
    rw [h.edge_sub]
    exact Int.ediv_mul_le _ hpos.ne'
  refine ⟨h.scale, ?_, ?_, ?_, ?_⟩
  · show -2 ^ 29 ≤ ((outputEnd s.so s.tp).rcvAdv - s.tp.rcvNxt).toInt
    rw [hend]
    split_ifs <;> omega
  · show ((outputEnd s.so s.tp).rcvAdv - s.tp.rcvNxt).toInt ≤ tcpMAXWIN * 2 ^ s.tp.rcvScale
    rw [hend]
    split_ifs
    · exact hhi
    · exact h.hi
  · intro e he
    obtain rfl := Option.some.inj he
    show (s.edge - s.tp.rcvNxt).toInt ≤ max ((outputEnd s.so s.tp).rcvAdv - s.tp.rcvNxt).toInt 0 ∧
      ((outputEnd s.so s.tp).rcvAdv - s.tp.rcvNxt).toInt - 2 ^ tcpMAXWINSHIFT ≤
        (s.edge - s.tp.rcvNxt).toInt
    rw [hend, tcpMAXWINSHIFT]
    split_ifs <;> omega
  · exact List.isChain_cons.mpr ⟨h.edge_iff.mpr hok, h.right⟩

/-- `rcv_nxt` moves. -/
theorem received {n : ℕ} (hn : n ≤ (s.tp.rcvAdv - s.tp.rcvNxt).toInt + 2 ^ 29) :
    WindowInv { s with tp := { s.tp with rcvNxt := s.tp.rcvNxt + BitVec.ofNat 32 n } } := by
  have hhi := h.hi
  have hlo := h.lo
  have hlt : (s.tp.rcvAdv - s.tp.rcvNxt).toInt < 2 ^ 30 :=
    (h.outputWin_mem.2.2).trans_lt h.outputWin_lt
  have hmove : (s.tp.rcvNxt + BitVec.ofNat 32 n - s.tp.rcvNxt).toInt = n := by
    rw [← BitVec.ofInt_natCast]
    exact toInt_add_sub s.tp.rcvNxt (by omega) (by omega)
  have hadv : (s.tp.rcvAdv - (s.tp.rcvNxt + BitVec.ofNat 32 n)).toInt =
      (s.tp.rcvAdv - s.tp.rcvNxt).toInt - n :=
    toInt_sub_sub s.tp.rcvNxt rfl hmove (by omega) (by omega)
  refine ⟨h.scale, ?_, ?_, ?_, h.right⟩
  · show -2 ^ 29 ≤ (s.tp.rcvAdv - (s.tp.rcvNxt + BitVec.ofNat 32 n)).toInt
    omega
  · show (s.tp.rcvAdv - (s.tp.rcvNxt + BitVec.ofNat 32 n)).toInt ≤ tcpMAXWIN * 2 ^ s.tp.rcvScale
    omega
  · intro e he
    have ⟨hmax, hnear⟩ := h.near e he
    rw [tcpMAXWINSHIFT] at hnear
    have hedge : (e - (s.tp.rcvNxt + BitVec.ofNat 32 n)).toInt = (e - s.tp.rcvNxt).toInt - n :=
      toInt_sub_sub s.tp.rcvNxt rfl hmove (by omega) (by omega)
    show (e - (s.tp.rcvNxt + BitVec.ofNat 32 n)).toInt ≤
        max (s.tp.rcvAdv - (s.tp.rcvNxt + BitVec.ofNat 32 n)).toInt 0 ∧
      (s.tp.rcvAdv - (s.tp.rcvNxt + BitVec.ofNat 32 n)).toInt - 2 ^ tcpMAXWINSHIFT ≤
        (e - (s.tp.rcvNxt + BitVec.ofNat 32 n)).toInt
    rw [hadv, hedge, tcpMAXWINSHIFT]
    omega

/-- Every step that does right keeps the edge. -/
theorem step (c : WindowCall) (hfits : c.Fits s) (hwrap : c.NoWrap s) (hok : c.Ok s) :
    ∃ t, s.step c = some t ∧ WindowInv t := by
  cases c with
  | tcpOutput => exact ⟨_, rfl, h.output hok⟩
  | received n => exact ⟨_, rfl, h.received hwrap⟩
  | buffer soRcv tMaxseg => exact ⟨_, rfl, ⟨h.scale, h.lo, h.hi, h.near, h.right⟩⟩
  | scale requestRScale =>
      refine ⟨_, rfl, ⟨hfits.2, h.lo, ?_, h.near, h.right⟩⟩
      have hpow : (2 : ℤ) ^ s.tp.rcvScale ≤ 2 ^ requestRScale :=
        pow_le_pow_right₀ (by norm_num) hfits.1
      exact h.hi.trans (mul_le_mul_of_nonneg_left hpow (Int.natCast_nonneg _))

/-- A step that does not do right moves the edge back. -/
theorem not_right {t : WindowLog} (c : WindowCall) (hok : ¬ c.Ok s) (ht : s.step c = some t) :
    ¬ EdgesRight t := by
  intro hright
  cases c with
  | tcpOutput =>
      obtain rfl := Option.some.inj ht
      exact hok (h.edge_iff.mp (List.isChain_cons.mp hright).1)
  | received n => exact hok trivial
  | buffer soRcv tMaxseg => exact hok trivial
  | scale requestRScale => exact hok trivial

end WindowInv

theorem windowInv_start (so : Socket) {tp : Tcpcb} (irs : BitVec 32) (hscale : tp.rcvScale ≤ tcpMAXWINSHIFT) :
    WindowInv (windowStart so tp irs) where
  scale := hscale
  lo := by simp [windowStart, tcpRcvseqinit]
  hi := by
    simp only [windowStart, tcpRcvseqinit, sub_self]
    positivity
  near _ he := by cases he
  right := List.isChain_nil

/-- **The right edge never moves backwards in a run whose sequence numbers do not wrap around if and only if
what is left of each announcement, rounded up, still fits at the next one.** -/
theorem edgesRight_iff (so : Socket) (tp : Tcpcb) (irs : BitVec 32) (hscale : tp.rcvScale ≤ tcpMAXWINSHIFT)
    (calls : List WindowCall)
    (hfits : AllCalls WindowLog.step (fun s c => c.Fits s ∧ c.NoWrap s) (windowStart so tp irs) calls) :
    KeepsAll WindowLog.step EdgesRight (windowStart so tp irs) calls ↔
      AllCalls WindowLog.step (fun s c => c.Ok s) (windowStart so tp irs) calls := by
  refine keepsAll_iff_of_inv WindowInv (fun s h => h.right) ?_ ?_ (windowInv_start so irs hscale) calls hfits
  · intro s c h hfit hok
    exact h.step c hfit.1 hfit.2 hok
  · intro s c t h _ hok ht
    exact h.not_right c hok ht

/-- Without a scale nothing is rounded, and every step does right. -/
theorem WindowInv.ok_of_scale_zero {s : WindowLog} (h : WindowInv s) (hscale : s.tp.rcvScale = 0)
    (c : WindowCall) : c.Ok s := by
  cases c with
  | tcpOutput =>
      intro e he
      have hmax := (h.near e he).1
      have hspace := spaceWin_nonneg s.so s.tp
      simp only [hscale, roundUp]
      omega
  | received n => trivial
  | buffer soRcv tMaxseg => trivial
  | scale requestRScale => trivial

/-- A receive buffer of 100000 bytes, of which some are used. -/
def sbOf100000 (cc : BitVec 32) : SockBuf := { reservedSb 100000 with sbCc := cc }

/-- An even number of bytes comes in and is not read, and the right edge stays. -/
theorem edgesRight_iff_even :
    KeepsAll WindowLog.step EdgesRight (windowStart attachedSocket tcpNewtcpcb 6)
      [.scale 1, .buffer (sbOf100000 0) 512, .tcpOutput, .received 2, .buffer (sbOf100000 2) 512, .tcpOutput] :=
  (edgesRight_iff attachedSocket tcpNewtcpcb 6 (by decide) _ (by decide +kernel)).mpr (by decide +kernel)

/-- One byte comes in and is not read, and the right edge goes back by one. -/
theorem tcpOutput_can_retract :
    let calls : List WindowCall := [.scale 1, .buffer (sbOf100000 0) 512, .tcpOutput, .received 1,
      .buffer (sbOf100000 1) 512, .tcpOutput]
    AllCalls WindowLog.step (fun s c => c.Fits s ∧ c.NoWrap s) (windowStart attachedSocket tcpNewtcpcb 6) calls ∧
      ∃ s, runCalls WindowLog.step (windowStart attachedSocket tcpNewtcpcb 6) calls = some s ∧
        s.edges = [100006, 100007] ∧ ¬ EdgesRight s := by
  intro calls
  refine ⟨by decide +kernel, ?_⟩
  have hrun : (runCalls WindowLog.step (windowStart attachedSocket tcpNewtcpcb 6) calls).map
      WindowLog.edges = some [100006, 100007] := by decide +kernel
  have ⟨s, hs, hedges⟩ := Option.map_eq_some_iff.mp hrun
  refine ⟨s, hs, hedges, ?_⟩
  rw [EdgesRight, hedges]
  decide +kernel

end Shaunos.Net
