import Mathlib.Algebra.Order.Group.Abs
import Mathlib.Algebra.Order.Group.Int
import Shaunos.Common.Run
import Shaunos.Net.Tcp

/-!
# Smoothed round-trip times

Reference: `Kernel/netinet/tcp_input.c` (`tcp_xmit_timer` and its calls in `tcp_input`),
`Include/kernel/sys/netinet/tcp_var.h` (`TCP_REXMTVAL`), `tcp_timer.h` (`TCPT_RANGESET`).

All of it is computed in `int` and stored in 16 bits. A sample is the difference of two time stamps, cut to 16
bits, and the peer chooses one of the two.

* `rttRight_iff` — the samples for which nothing is lost.
-/

namespace Shaunos.Net

/-! ## The code -/

def tcpRTTSHIFT : ℕ := 3
def tcpRTTVARSHIFT : ℕ := 2

/-- `TCPTV_REXMTMAX`, with `PR_SLOWHZ` 2. -/
def tcptvREXMTMAX : ℤ := 64 * 2

/-- Store an `int` in a `short`. -/
def short (x : ℤ) : BitVec 16 := BitVec.ofInt 16 x

/-- `TCPT_RANGESET`. -/
def tcptRangeset (value tvmin tvmax : ℤ) : BitVec 16 :=
  let tv := short value
  if tv.toInt < tvmin then short tvmin else if tvmax < tv.toInt then short tvmax else tv

/-- `TCP_REXMTVAL`. -/
def Tcpcb.tcpRexmtval (tp : Tcpcb) : ℤ := tp.tSrtt.toInt >>> tcpRTTSHIFT + tp.tRttvar.toInt

/-- `tcp_xmit_timer`. -/
def tcpXmitTimer (tp : Tcpcb) (rtt : BitVec 16) : Tcpcb :=
  let tp :=
    if tp.tSrtt ≠ 0 then
      let delta := short (rtt.toInt - 1 - tp.tSrtt.toInt >>> tcpRTTSHIFT)
      let tSrtt := short (tp.tSrtt.toInt + delta.toInt)
      let delta := if delta.toInt < 0 then short (-delta.toInt) else delta
      let delta := short (delta.toInt - tp.tRttvar.toInt >>> tcpRTTVARSHIFT)
      let tRttvar := short (tp.tRttvar.toInt + delta.toInt)
      { tp with
        tSrtt := if tSrtt.toInt ≤ 0 then 1 else tSrtt
        tRttvar := if tRttvar.toInt ≤ 0 then 1 else tRttvar }
    else
      { tp with
        tSrtt := short (rtt.toInt <<< tcpRTTSHIFT)
        tRttvar := short (rtt.toInt <<< (tcpRTTVARSHIFT - 1)) }
  { tp with
    tRtt := 0
    tRxtshift := 0
    tRxtcur := tcptRangeset tp.tcpRexmtval tp.tRttmin.toNat tcptvREXMTMAX
    tSofterror := 0 }

/-- What `tcp_input` passes for a round trip. -/
inductive RttSample where
  /-- `t_rtt` -/
  | timed (tRtt : BitVec 16)
  /-- `tcp_now - ts_ecr + 1` -/
  | stamped (tcpNow tsEcr : BitVec 32)

def RttSample.rtt : RttSample → BitVec 16
  | .timed tRtt => tRtt
  | .stamped tcpNow tsEcr => (tcpNow - tsEcr + 1).setWidth 16

/-! ## What should happen -/

/-- The smoothed time and its variance behind a sample, as numbers. -/
def smooth (srtt rttvar rtt : ℤ) : ℤ × ℤ :=
  if srtt = 0 then (rtt * 8, rtt * 2)
  else
    let delta := rtt - 1 - srtt / 8
    (max 1 (srtt + delta), max 1 (rttvar + (|delta| - rttvar / 4)))

/-- Nothing is lost, both times are positive, and the time to a retransmission is in its range. -/
structure SampleRight (tp : Tcpcb) (c : RttSample) : Prop where
  smooth : ((tcpXmitTimer tp c.rtt).tSrtt.toInt, (tcpXmitTimer tp c.rtt).tRttvar.toInt) =
    smooth tp.tSrtt.toInt tp.tRttvar.toInt c.rtt.toInt
  srtt : 0 < (tcpXmitTimer tp c.rtt).tSrtt.toInt
  rttvar : 0 < (tcpXmitTimer tp c.rtt).tRttvar.toInt
  rxtcur : tp.tRttmin.toNat ≤ (tcpXmitTimer tp c.rtt).tRxtcur.toInt ∧
    (tcpXmitTimer tp c.rtt).tRxtcur.toInt ≤ tcptvREXMTMAX

/-- A first sample is positive and less than 4096. Another one does not go so far from the smoothed time that 16
bits are not enough for the new time or its variance. The range of the retransmission time is not empty. -/
def SampleOk (tp : Tcpcb) (c : RttSample) : Prop :=
  (if tp.tSrtt = 0 then 0 < c.rtt.toInt ∧ c.rtt.toInt < 4096
    else tp.tSrtt.toInt + (c.rtt.toInt - 1 - tp.tSrtt.toInt / 8) < 2 ^ 15 ∧
      tp.tRttvar.toInt + (|c.rtt.toInt - 1 - tp.tSrtt.toInt / 8| - tp.tRttvar.toInt / 4) < 2 ^ 15) ∧
    tp.tRttmin.toNat ≤ tcptvREXMTMAX

instance (tp : Tcpcb) (c : RttSample) : Decidable (SampleOk tp c) := inferInstanceAs (Decidable (_ ∧ _))

/-- A call of `tcp_xmit_timer`. -/
def Tcpcb.sample (tp : Tcpcb) (c : RttSample) : Option Tcpcb := some (tcpXmitTimer tp c.rtt)

/-! ## Storing in 16 bits -/

theorem exists_toInt_short (x : ℤ) :
    ∃ k : ℤ, (short x).toInt = x + 65536 * k ∧ -2 ^ 15 ≤ (short x).toInt ∧ (short x).toInt < 2 ^ 15 := by
  have heq : (short x).toInt = x.bmod (2 ^ 16) := BitVec.toInt_ofInt x
  have hdef := Int.bmod_def x (2 ^ 16)
  have hlt := BitVec.toInt_lt (x := short x)
  have hle := BitVec.le_toInt (x := short x)
  refine ⟨((short x).toInt - x) / 65536, ?_, by omega, by omega⟩
  omega

theorem toInt_short {x : ℤ} (hle : -2 ^ 15 ≤ x) (hlt : x < 2 ^ 15) : (short x).toInt = x := by
  obtain ⟨k, hk, _, _⟩ := exists_toInt_short x
  omega

/-- The range is kept if there is one. -/
theorem tcptRangeset_mem_iff (value : ℤ) {tvmin tvmax : ℤ} (hmin : 0 ≤ tvmin) (hmax : tvmax < 2 ^ 15) :
    (tvmin ≤ (tcptRangeset value tvmin tvmax).toInt ∧ (tcptRangeset value tvmin tvmax).toInt ≤ tvmax) ↔
      tvmin ≤ tvmax := by
  constructor
  · exact fun h => h.1.trans h.2
  · intro h
    have hle := BitVec.le_toInt (x := short value)
    rw [tcptRangeset]
    split
    · rw [toInt_short (by omega) (by omega)]
      exact ⟨le_rfl, h⟩
    split
    · rw [toInt_short (by omega) (by omega)]
      exact ⟨h, le_rfl⟩
    · omega

/-! ## A sample -/

section

variable {tp : Tcpcb} {c : RttSample} {rtt : BitVec 16}

/-- There was no sample yet, or both times are positive. -/
def RttInv (tp : Tcpcb) : Prop := tp.tSrtt = 0 ∨ 0 < tp.tSrtt.toInt ∧ 0 < tp.tRttvar.toInt

theorem toInt_rtt_mem (rtt : BitVec 16) : -2 ^ 15 ≤ rtt.toInt ∧ rtt.toInt < 2 ^ 15 := by
  have hle := BitVec.le_toInt (x := rtt)
  have hlt := BitVec.toInt_lt (x := rtt)
  omega

@[simp] theorem tcpXmitTimer_tRttmin : (tcpXmitTimer tp rtt).tRttmin = tp.tRttmin := by
  rw [tcpXmitTimer]
  dsimp only
  split <;> rfl

theorem tcpXmitTimer_tRxtcur : (tcpXmitTimer tp rtt).tRxtcur =
    tcptRangeset (tcpXmitTimer tp rtt).tcpRexmtval tp.tRttmin.toNat tcptvREXMTMAX := by
  rw [tcpXmitTimer]
  dsimp only
  split <;> rfl

/-- The first sample. -/
theorem tcpXmitTimer_first (rtt : BitVec 16) (h : tp.tSrtt = 0) :
    (tcpXmitTimer tp rtt).tSrtt = short (rtt.toInt * 8) ∧ (tcpXmitTimer tp rtt).tRttvar = short (rtt.toInt * 2) := by
  rw [tcpXmitTimer]
  dsimp only
  rw [if_neg (not_not.mpr h), Int.shiftLeft_eq, Int.shiftLeft_eq]
  exact ⟨rfl, rfl⟩

theorem first_iff (h : tp.tSrtt = 0) :
    (((tcpXmitTimer tp rtt).tSrtt.toInt, (tcpXmitTimer tp rtt).tRttvar.toInt) =
        smooth tp.tSrtt.toInt tp.tRttvar.toInt rtt.toInt ∧
      0 < (tcpXmitTimer tp rtt).tSrtt.toInt ∧ 0 < (tcpXmitTimer tp rtt).tRttvar.toInt) ↔
      0 < rtt.toInt ∧ rtt.toInt < 4096 := by
  obtain ⟨hsrtt, hrttvar⟩ := tcpXmitTimer_first rtt h
  obtain ⟨k, hk, _, _⟩ := exists_toInt_short (rtt.toInt * 8)
  obtain ⟨j, hj, _, _⟩ := exists_toInt_short (rtt.toInt * 2)
  rw [hsrtt, hrttvar, smooth, if_pos (by rw [h]; rfl), Prod.mk.injEq]
  omega

/-- Another sample. -/
theorem tcpXmitTimer_later (rtt : BitVec 16) (h : tp.tSrtt ≠ 0) : ∃ delta adelta diff srtt rttvar : BitVec 16,
    delta = short (rtt.toInt - 1 - tp.tSrtt.toInt / 8) ∧ srtt = short (tp.tSrtt.toInt + delta.toInt) ∧
    adelta = (if delta.toInt < 0 then short (-delta.toInt) else delta) ∧
    diff = short (adelta.toInt - tp.tRttvar.toInt / 4) ∧ rttvar = short (tp.tRttvar.toInt + diff.toInt) ∧
    (tcpXmitTimer tp rtt).tSrtt.toInt = max 1 srtt.toInt ∧
    (tcpXmitTimer tp rtt).tRttvar.toInt = max 1 rttvar.toInt := by
  have hset (x : BitVec 16) : (if x.toInt ≤ 0 then (1 : BitVec 16) else x).toInt = max 1 x.toInt := by
    split
    · exact (max_eq_left (Int.le_add_one ‹_›)).symm
    · exact (max_eq_right (not_le.mp ‹_›)).symm
  refine ⟨_, _, _, _, _, rfl, rfl, rfl, rfl, rfl, ?_, ?_⟩
  · rw [← hset, tcpXmitTimer]
    dsimp only
    rw [if_pos h, Int.shiftRight_eq_div_pow]
    rfl
  · rw [← hset, tcpXmitTimer]
    dsimp only
    rw [if_pos h, Int.shiftRight_eq_div_pow, Int.shiftRight_eq_div_pow]
    rfl

theorem later_iff (hsrtt : 0 < tp.tSrtt.toInt) (hrttvar : 0 < tp.tRttvar.toInt) :
    (((tcpXmitTimer tp rtt).tSrtt.toInt, (tcpXmitTimer tp rtt).tRttvar.toInt) =
        smooth tp.tSrtt.toInt tp.tRttvar.toInt rtt.toInt ∧
      0 < (tcpXmitTimer tp rtt).tSrtt.toInt ∧ 0 < (tcpXmitTimer tp rtt).tRttvar.toInt) ↔
      tp.tSrtt.toInt + (rtt.toInt - 1 - tp.tSrtt.toInt / 8) < 2 ^ 15 ∧
        tp.tRttvar.toInt + (|rtt.toInt - 1 - tp.tSrtt.toInt / 8| - tp.tRttvar.toInt / 4) < 2 ^ 15 := by
  have hne : tp.tSrtt ≠ 0 := by
    rintro h
    rw [h] at hsrtt
    exact absurd hsrtt (by decide)
  obtain ⟨delta, adelta, diff, srtt, rttvar, hdelta, hs, hadelta, hdiff, hv, hsrtt', hrttvar'⟩ :=
    tcpXmitTimer_later rtt hne
  obtain ⟨k₁, hk₁, hl₁, hu₁⟩ := exists_toInt_short (rtt.toInt - 1 - tp.tSrtt.toInt / 8)
  obtain ⟨k₂, hk₂, hl₂, hu₂⟩ := exists_toInt_short (tp.tSrtt.toInt + delta.toInt)
  obtain ⟨k₃, hk₃, hl₃, hu₃⟩ := exists_toInt_short (-delta.toInt)
  obtain ⟨k₄, hk₄, hl₄, hu₄⟩ := exists_toInt_short (adelta.toInt - tp.tRttvar.toInt / 4)
  obtain ⟨k₅, hk₅, hl₅, hu₅⟩ := exists_toInt_short (tp.tRttvar.toInt + diff.toInt)
  have hadelta' : adelta.toInt = if delta.toInt < 0 then (short (-delta.toInt)).toInt else delta.toInt := by
    rw [hadelta, apply_ite BitVec.toInt]
  rw [← hdelta] at hk₁ hl₁ hu₁
  rw [← hs] at hk₂ hl₂ hu₂
  rw [← hdiff] at hk₄ hl₄ hu₄
  rw [← hv] at hk₅ hl₅ hu₅
  have hmem := toInt_rtt_mem rtt
  have hmem' := toInt_rtt_mem tp.tSrtt
  have hmem'' := toInt_rtt_mem tp.tRttvar
  have hd : -36864 ≤ rtt.toInt - 1 - tp.tSrtt.toInt / 8 ∧ rtt.toInt - 1 - tp.tSrtt.toInt / 8 < 2 ^ 15 := by omega
  rw [hsrtt', hrttvar', smooth, if_neg (by omega), Prod.mk.injEq]
  generalize rtt.toInt - 1 - tp.tSrtt.toInt / 8 = d at *
  split at hadelta' <;> rcases abs_cases d with ⟨habs, _⟩ | ⟨habs, _⟩ <;> rw [habs] <;> omega

theorem sampleRight_iff (h : RttInv tp) : SampleRight tp c ↔ SampleOk tp c := by
  have hrange : (tp.tRttmin.toNat ≤ (tcpXmitTimer tp c.rtt).tRxtcur.toInt ∧
      (tcpXmitTimer tp c.rtt).tRxtcur.toInt ≤ tcptvREXMTMAX) ↔ (tp.tRttmin.toNat : ℤ) ≤ tcptvREXMTMAX := by
    rw [tcpXmitTimer_tRxtcur]
    exact tcptRangeset_mem_iff _ (Int.natCast_nonneg _) (by decide)
  have hall : SampleRight tp c ↔ (((tcpXmitTimer tp c.rtt).tSrtt.toInt, (tcpXmitTimer tp c.rtt).tRttvar.toInt) =
        smooth tp.tSrtt.toInt tp.tRttvar.toInt c.rtt.toInt ∧
      0 < (tcpXmitTimer tp c.rtt).tSrtt.toInt ∧ 0 < (tcpXmitTimer tp c.rtt).tRttvar.toInt) ∧
      (tp.tRttmin.toNat : ℤ) ≤ tcptvREXMTMAX := by
    rw [← hrange]
    constructor
    · rintro ⟨h₁, h₂, h₃, h₄⟩
      exact ⟨⟨h₁, h₂, h₃⟩, h₄⟩
    · rintro ⟨⟨h₁, h₂, h₃⟩, h₄⟩
      exact ⟨h₁, h₂, h₃, h₄⟩
  rw [hall, SampleOk]
  refine and_congr_left' ?_
  rcases h with hzero | ⟨hsrtt, hrttvar⟩
  · rw [if_pos hzero]
    exact first_iff hzero
  · rw [if_neg]
    · exact later_iff hsrtt hrttvar
    · rintro h
      rw [h] at hsrtt
      exact absurd hsrtt (by decide)

theorem RttInv.sample (h : RttInv tp) (hok : SampleOk tp c) : RttInv (tcpXmitTimer tp c.rtt) :=
  have hright := (sampleRight_iff h).mpr hok
  .inr ⟨hright.srtt, hright.rttvar⟩

end

/-! ## Main results -/

/-- **Round-trip times are right** behind every sample exactly when all samples fit. -/
theorem rttRight_iff {tp : Tcpcb} (h : RttInv tp) (cs : List RttSample) :
    AllCalls Tcpcb.sample SampleRight tp cs ↔ AllCalls Tcpcb.sample SampleOk tp cs := by
  refine allCalls_iff_of_inv RttInv (fun _ _ hinv => sampleRight_iff hinv) (fun tp c t hinv hok ht => ?_) h cs
  obtain rfl := Option.some.inj ht
  exact hinv.sample hok

/-- A new connection, with a round trip of one second and one of two. -/
theorem rttRight_iff_new : AllCalls Tcpcb.sample SampleRight tcpNewtcpcb [.timed 3, .stamped 10 6] :=
  (rttRight_iff (.inl rfl) _).mpr (by decide)

/-- The peer echoes a time stamp that is yet to come, or one from long ago. -/
theorem rtt_can_be_lost :
    ¬ AllCalls Tcpcb.sample SampleRight tcpNewtcpcb [.stamped 100 101] ∧
      ¬ AllCalls Tcpcb.sample SampleRight tcpNewtcpcb [.stamped 5000 905] := by
  constructor
  · intro h
    exact absurd h.1.srtt (by decide)
  · intro h
    exact absurd h.1.srtt (by decide)

end Shaunos.Net
