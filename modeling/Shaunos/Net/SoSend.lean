import Shaunos.Common.Run
import Shaunos.Net.Errno
import Shaunos.Net.MbufCluster
import Shaunos.Net.SockBuf

/-!
# Sending on a socket

Reference: `Kernel/net/uipc_socket.c` (`sosend`), `Include/kernel/sys/socketval.h` (`sbspace`, `sblock`),
`Kernel/uio.c` (`uiomove`), `Kernel/netinet/tcp_usrreq.c` (`tcp_usrreq`: `PRU_SEND`, `PRU_SENDOOB`).

A call goes from one look at the buffer to the next, and between two looks it passes on what it thinks there is space
for. The space is signed, and the variable it goes to is not. Each step of a run is the call's own, and with it comes
what others have made of the socket in the meantime.

* `SendInv.step` — what a step preserves, if it does not take a negative space for a large one;
* `sendRight_iff` — when a call keeps to the space there is, over every run.
-/

namespace Shaunos.Net

/-! ## The code -/

def mINCLSIZE : ℕ := 208

/-- `struct socket`, as far as `sosend` reads it. -/
structure SendSock where
  soSnd : SockBuf
  /-- `so_snd.sb_lowat` -/
  sbLowat : BitVec 32
  soError : BitVec 16
  ssCantSendMore : Bool
  ssIsConnected : Bool
  ssIsConfirming : Bool
  ssNbio : Bool
  /-- `so_pcb` is not null. -/
  soPcb : Bool

/-- The arguments of `sosend`, and what the protocol says of itself. -/
structure SendArgs where
  prAtomic : Bool
  prConnrequired : Bool
  addr : Bool
  /-- The bytes that `uio` leads to. -/
  uio : Option (List Byte)
  top : List Mbuf
  /-- `m_len` of `control`, 0 if there is none. -/
  clen : BitVec 32
  oob : Bool
  eor : Bool
  maxHdr : ℕ

/-- `atomic`. -/
def SendArgs.atomic (a : SendArgs) : Bool := a.prAtomic || !a.top.isEmpty

/-- Where a call is. -/
inductive SendPhase where
  /-- At `restart`, in `sblock`. -/
  | restart
  /-- At the head of the outer loop. -/
  | check
  /-- In `sbwait`. -/
  | asleep
  /-- About to make an mbuf. -/
  | fill
  /-- About to call `pr_usrreq`. -/
  | pass
  | done (error : ℤ)
  /-- A null pointer was followed. -/
  | fault
deriving DecidableEq

/-- What was passed on behind one look at the buffer. -/
structure SendRound where
  /-- `sbspace` and `resid` at that look. -/
  space : ℤ
  resid : BitVec 32
  passed : ℕ

/-- A call of `sosend` on its way. No code reads `passed` and `rounds`. -/
structure SendRun where
  phase : SendPhase
  sock : SendSock
  /-- What `uio` has left. -/
  data : List Byte
  resid : BitVec 32
  clen : BitVec 32
  space : BitVec 32
  top : List Mbuf
  /-- What was passed to `pr_usrreq`. -/
  passed : List Byte
  /-- The last one first. -/
  rounds : List SendRound

/-- What a step meets. -/
structure SendEvent where
  /-- The socket, as others have left it. -/
  sock : SendSock
  /-- `m_get` and `m_gethdr` find memory. -/
  mget : Bool
  /-- `m_clget` finds memory. -/
  mclget : Bool
  /-- After how many bytes `copy_from_user` fails, if it does. -/
  copyFails : Option ℕ
  /-- What `sbwait` or `tcp_output` returns. -/
  error : ℤ

namespace SendRun

/-- The call, with `resid` set. -/
def start (a : SendArgs) (sock : SendSock) : SendRun where
  phase := if a.uio = none ∧ a.top = [] then .fault else .restart
  sock := sock
  data := a.uio.getD []
  resid := match a.uio with
    | some data => BitVec.ofNat 32 data.length
    | none => BitVec.ofInt 32 (((a.top.head?.bind Mbuf.mPkthdr).getD 0))
  clen := a.clen
  space := 0
  top := a.top
  passed := []
  rounds := []

variable (a : SendArgs) (r : SendRun)

/-- `sbunlock` and a return, at `release`. -/
def release (error : ℤ) : SendRun :=
  { r with phase := .done error, sock.soSnd.sbLock := false }

/-- `space`, at a look at the buffer. -/
def spaceNow : BitVec 32 := BitVec.ofInt 32 (sbspace r.sock.soSnd) + if a.oob then 1024 else 0

/-- The errors ahead of the test for space. -/
def checkError : Option ℤ :=
  if r.sock.ssCantSendMore then some (-ePIPE)
  else if r.sock.soError ≠ 0 then some r.sock.soError.toNat
  else if r.sock.ssIsConnected = false ∧ a.prConnrequired ∧ r.sock.ssIsConfirming = false ∧
      ¬ (r.resid = 0 ∧ r.clen ≠ 0) then some (-eNOTCONN)
  else if r.sock.ssIsConnected = false ∧ a.prConnrequired = false ∧ a.addr = false then some (-eDESTADDRREQ)
  else if (a.atomic ∧ r.sock.soSnd.sbHiwat < r.resid) ∨ r.sock.soSnd.sbHiwat < r.clen then some (-eMSGSIZE)
  else none

/-- The test for space: all of it is unsigned. -/
def Blocks : Prop :=
  r.spaceNow a < r.resid + r.clen ∧ a.uio ≠ none ∧
    (a.atomic = true ∨ r.spaceNow a < r.sock.sbLowat ∨ r.spaceNow a < r.clen)

instance : Decidable (r.Blocks a) := inferInstanceAs (Decidable (_ ∧ _ ∧ (_ ∨ _ ∨ _)))

/-- The outer loop, up to the first mbuf. -/
def check : SendRun :=
  match r.checkError a with
  | some error => r.release error
  | none =>
      if r.Blocks a then
        if r.sock.ssNbio then r.release (-eWOULDBLOCK)
        else { r with phase := .asleep, sock.soSnd.sbLock := false }
      else
        { r with
          phase := .fill
          space := r.spaceNow a - r.clen
          rounds := ⟨sbspace r.sock.soSnd, r.resid, 0⟩ :: r.rounds }

/-- `top->m_flags |= M_EOR`, with `MSG_EOR`. -/
def markEor (eor : Bool) : List Mbuf → List Mbuf
  | [] => []
  | m :: rest => { m with mEor := m.mEor || eor } :: rest

/-- Whether the mbuf gets a cluster. -/
def Clusters : Prop := mINCLSIZE ≤ r.resid.toNat ∧ mCLBYTES ≤ r.space.toNat

instance : Decidable r.Clusters := inferInstanceAs (Decidable (_ ∧ _))

/-- `mlen`, for an mbuf without a cluster. -/
def mlen : ℕ := if r.top = [] then mHLEN else mLEN

/-- `len`: how many bytes go to the mbuf. -/
def fillLen : ℕ :=
  if r.Clusters then
    if a.atomic ∧ r.top = [] then min (mCLBYTES - a.maxHdr) r.resid.toNat else min mCLBYTES r.resid.toNat
  else min (min r.mlen r.resid.toNat) r.space.toNat

/-- What is taken from `space`. -/
def fillCost : ℕ := if r.Clusters then mCLBYTES else r.fillLen a

/-- `m_data - m_dat`, or from the start of the cluster. -/
def fillData : ℕ :=
  let first := if r.top = [] then 8 else 0
  if r.Clusters then if a.atomic ∧ r.top = [] then a.maxHdr else 0
  else if a.atomic ∧ r.top = [] ∧ r.fillLen a < r.mlen then first + (mHLEN - r.fillLen a) / 4 * 4
  else first

/-- The mbuf, with the bytes from `uio`. -/
def fillMbuf : Mbuf where
  mType := 1
  mExt := r.Clusters
  mEor := false
  mPkthdr := if r.top = [] then some 0 else none
  mData := r.fillData a
  bytes := r.data.take (r.fillLen a)

/-- Another mbuf behind `top`. -/
def addMbuf : SendRun :=
  let len := r.fillLen a
  let data := r.data.drop len
  let resid := BitVec.ofNat 32 data.length
  let space := r.space - BitVec.ofNat 32 (r.fillCost a)
  let top := setPkthdr (· + len) (r.top ++ [r.fillMbuf a])
  { r with
    data, resid, space
    top := if resid = 0 then markEor a.eor top else top
    phase := if resid ≠ 0 ∧ 0 < space ∧ a.atomic then .fill else .pass }

/-- The innermost loop, for one mbuf. -/
def fill (e : SendEvent) : SendRun :=
  if a.uio = none then { r with phase := .pass, resid := 0, top := markEor a.eor r.top }
  else if e.mget = false ∨ (r.Clusters ∧ e.mclget = false) then { r with phase := .fault }
  else
    match e.copyFails with
    | some k => if k < r.fillLen a then ({ r with data := r.data.drop k }).release (-eFAULT) else r.addMbuf a
    | none => r.addMbuf a

/-- `tcp_usrreq`: the error, and the buffer. -/
def usrreq (error : ℤ) : ℤ × SockBuf :=
  if r.clen ≠ 0 then (-eINVAL, r.sock.soSnd)
  else if r.sock.soPcb = false then (-eINVAL, r.sock.soSnd)
  else if a.oob ∧ sbspace r.sock.soSnd < -512 then (-eNOBUFS, r.sock.soSnd)
  else (error, sbappend r.sock.soSnd r.top)

/-- The call of `pr_usrreq`, and the ends of the two outer loops. -/
def pass (e : SendEvent) : SendRun :=
  let (error, soSnd) := r.usrreq a e.error
  let s : SendRun := { r with
    sock.soSnd := soSnd
    clen := 0
    top := []
    passed := r.passed ++ chainBytes r.top
    rounds := match r.rounds with
      | [] => []
      | x :: rest => { x with passed := x.passed + chainLen r.top } :: rest }
  if error ≠ 0 then s.release error
  else if r.resid ≠ 0 then { s with phase := if 0 < r.space then .fill else .check }
  else s.release 0

/-- What the call itself does next. -/
def act (e : SendEvent) : SendRun :=
  match r.phase with
  | .restart => { r with phase := .check, sock.soSnd.sbLock := true }
  | .check => r.check a
  | .asleep => { r with phase := if e.error ≠ 0 then .done e.error else .restart }
  | .fill => r.fill a e
  | .pass => r.pass a e
  | .done _ | .fault => r

/-- A step of the call, on the socket as others have left it. -/
def step (e : SendEvent) : SendRun := ({ r with sock := e.sock }).act a e

end SendRun

/-! ## What a call should do -/

/-- `sb_cc` is at most one cluster above `sb_hiwat`. -/
def CcBounded (sb : SockBuf) : Prop := sb.sbCc.toNat ≤ sb.sbHiwat.toNat + mCLBYTES

/-- A space, rounded up to whole clusters. -/
def clusterCeil (space : ℤ) : ℕ := (space.toNat + (mCLBYTES - 1)) / mCLBYTES * mCLBYTES

/-- What is passed on fits in the space that was there, and nothing is if there was none. -/
structure SendRight (a : SendArgs) (data : List Byte) (r : SendRun) : Prop where
  blocked : ∀ x ∈ r.rounds, x.resid ≠ 0 → 0 < x.space
  /-- Out-of-band data goes to `PRU_SENDOOB`. -/
  fits : a.oob = false → ∀ x ∈ r.rounds, x.passed ≤ clusterCeil x.space
  bounded : CcBounded r.sock.soSnd
  pre : r.passed <+: data

/-- Others do not fill the buffer, and while it is locked they only take from it. -/
structure SendRely (r : SendRun) (e : SendEvent) : Prop where
  bounded : CcBounded e.sock.soSnd
  locked : r.phase = .check ∨ r.phase = .fill ∨ r.phase = .pass →
    e.sock.soSnd.sbHiwat = r.sock.soSnd.sbHiwat ∧ e.sock.soSnd.sbCc ≤ r.sock.soSnd.sbCc

/-- At a look at the buffer the call goes no further, or there is nothing to send, or there is space. -/
def SendRun.LookOk (a : SendArgs) (r : SendRun) : Prop :=
  r.phase = .check → (r.checkError a ≠ none ∨ r.Blocks a) ∨ r.resid = 0 ∨ 0 < sbspace r.sock.soSnd

def SendOk (a : SendArgs) (r : SendRun) (e : SendEvent) : Prop := ({ r with sock := e.sock }).LookOk a

instance (sb : SockBuf) : Decidable (CcBounded sb) := inferInstanceAs (Decidable (_ ≤ _))

instance (r : SendRun) (e : SendEvent) : Decidable (SendRely r e) :=
  decidable_of_iff (CcBounded e.sock.soSnd ∧ (r.phase = .check ∨ r.phase = .fill ∨ r.phase = .pass →
    e.sock.soSnd.sbHiwat = r.sock.soSnd.sbHiwat ∧ e.sock.soSnd.sbCc ≤ r.sock.soSnd.sbCc))
    ⟨fun h => ⟨h.1, h.2⟩, fun h => ⟨h.1, h.2⟩⟩

instance (a : SendArgs) (r : SendRun) : Decidable (r.LookOk a) :=
  inferInstanceAs (Decidable (_ → (_ ≠ none ∨ _) ∨ _ ∨ _))

instance (a : SendArgs) (r : SendRun) (e : SendEvent) : Decidable (SendOk a r e) :=
  inferInstanceAs (Decidable (({ r with sock := e.sock }).LookOk a))

/-! ## Space -/

section

variable {a : SendArgs} {r : SendRun} {e : SendEvent} {data : List Byte} {x : SendRound} {sb : SockBuf}

/-- If there is space, then it is space below `sb_hiwat`. -/
theorem cc_add_space (hb : CcBounded sb) (hpos : 0 < sbspace sb) :
    sb.sbCc.toNat + (sbspace sb).toNat ≤ sb.sbHiwat.toNat := by
  have hle : sbspace sb ≤ (sb.sbHiwat - sb.sbCc).toInt := min_le_left _ _
  have hint := BitVec.toInt_eq_toNat_cond (sb.sbHiwat - sb.sbCc)
  have hsub := BitVec.toNat_sub sb.sbHiwat sb.sbCc
  have hcc := sb.sbCc.isLt
  have hhiwat := sb.sbHiwat.isLt
  unfold CcBounded mCLBYTES at hb
  split at hint
  · omega
  · omega

theorem sbspace_lt (sb : SockBuf) : sbspace sb < 2 ^ 31 := by
  have hle : sbspace sb ≤ (sb.sbHiwat - sb.sbCc).toInt := min_le_left _ _
  have hlt := BitVec.toInt_lt (x := sb.sbHiwat - sb.sbCc)
  omega

/-- What `MSG_OOB` adds to the space. -/
def SendArgs.slack (a : SendArgs) : ℕ := if a.oob then 1024 else 0

theorem toNat_spaceNow (hpos : 0 < sbspace r.sock.soSnd) :
    (r.spaceNow a).toNat = (sbspace r.sock.soSnd).toNat + a.slack := by
  have hlt := sbspace_lt r.sock.soSnd
  have hnat : (BitVec.ofInt 32 (sbspace r.sock.soSnd)).toNat = (sbspace r.sock.soSnd).toNat := by
    rw [BitVec.toNat_ofInt]
    omega
  unfold SendRun.spaceNow SendArgs.slack
  split
  · rw [BitVec.toNat_add, hnat]
    simp
    omega
  · simpa using hnat

theorem le_clusterCeil {n : ℕ} (h : n ≤ x.space.toNat) : n ≤ clusterCeil x.space := by
  unfold clusterCeil mCLBYTES
  omega

theorem clusterCeil_pos (h : 0 < x.space) : mCLBYTES ≤ clusterCeil x.space := by
  unfold clusterCeil mCLBYTES
  omega

/-! ## A step -/

/-- What a round may still pass on: nothing is left; or `pr_usrreq` will refuse the control data; or it is within the
space. -/
def Budget (a : SendArgs) (r : SendRun) (x : SendRound) : Prop :=
  (r.data = [] ∧ chainLen r.top = 0 ∧ x.passed = 0) ∨
  (0 < x.space ∧ x.passed = 0 ∧ r.clen ≠ 0 ∧ chainLen r.top ≤ mCLBYTES) ∨
  (0 < x.space ∧ x.passed + chainLen r.top + r.space.toNat ≤ x.space.toNat + a.slack ∧
    r.sock.soSnd.sbCc.toNat + chainLen r.top + r.space.toNat ≤ r.sock.soSnd.sbHiwat.toNat + a.slack)

/-- A call that has not returned. -/
structure SendLive (a : SendArgs) (data : List Byte) (r : SendRun) : Prop where
  resid : r.resid = BitVec.ofNat 32 r.data.length
  parts : r.passed ++ chainBytes r.top ++ r.data = data
  top : r.phase ≠ .pass → r.top = []
  budget : r.phase = .fill ∨ r.phase = .pass → ∃ x rest, r.rounds = x :: rest ∧ Budget a r x

/-- The call has returned, or has stopped for ever. -/
def SendPhase.Over : SendPhase → Prop
  | .done _ | .fault => True
  | _ => False

structure SendInv (a : SendArgs) (data : List Byte) (r : SendRun) : Prop where
  right : SendRight a data r
  live : ¬ r.phase.Over → SendLive a data r

theorem SendInv.of_over (h : SendRight a data r) (hover : r.phase.Over) : SendInv a data r where
  right := h
  live hlive := absurd hover hlive

theorem SendInv.release (h : SendRight a data r) (error : ℤ) : SendInv a data (r.release error) :=
  .of_over ⟨h.blocked, h.fits, h.bounded, h.pre⟩ trivial

/-- What others do to the socket. -/
theorem SendInv.rely (h : SendInv a data r) (hrely : SendRely r e) :
    SendInv a data { r with sock := e.sock } where
  right := ⟨h.right.blocked, h.right.fits, hrely.bounded, h.right.pre⟩
  live hlive := by
    have hl := h.live hlive
    refine ⟨hl.resid, hl.parts, hl.top, ?_⟩
    intro hphase
    obtain ⟨x, rest, hrounds, hbudget⟩ := hl.budget hphase
    obtain ⟨hhiwat, hcc⟩ := hrely.locked (.inr hphase)
    refine ⟨x, rest, hrounds, ?_⟩
    rcases hbudget with hnone | hrefused | ⟨hpos, hpassed, hspace⟩
    · exact .inl hnone
    · exact .inr (.inl hrefused)
    · have hle : e.sock.soSnd.sbCc.toNat ≤ r.sock.soSnd.sbCc.toNat := hcc
      refine .inr (.inr ⟨hpos, hpassed, ?_⟩)
      change e.sock.soSnd.sbCc.toNat + chainLen r.top + r.space.toNat ≤ e.sock.soSnd.sbHiwat.toNat + a.slack
      rw [hhiwat]
      omega

theorem SendLive.data_eq_nil (h : SendLive a data r) (hlen : data.length < 2 ^ 32) (hresid : r.resid = 0) :
    r.data = [] := by
  have hle : r.data.length ≤ data.length := by
    rw [← h.parts, List.length_append]
    exact Nat.le_add_left _ _
  have hzero : (BitVec.ofNat 32 r.data.length).toNat = 0 := by
    rw [← h.resid, hresid]
    rfl
  rw [BitVec.toNat_ofNat, Nat.mod_eq_of_lt (by omega)] at hzero
  exact List.eq_nil_of_length_eq_zero hzero

theorem SendLive.toNat_resid (h : SendLive a data r) (hlen : data.length < 2 ^ 32) :
    r.resid.toNat = r.data.length := by
  have hle : r.data.length ≤ data.length := by
    rw [← h.parts, List.length_append]
    exact Nat.le_add_left _ _
  rw [h.resid, BitVec.toNat_ofNat, Nat.mod_eq_of_lt (by omega)]

/-- A look at the buffer. -/
theorem SendInv.check (h : SendInv a data r) (hphase : r.phase = .check) (hlen : data.length < 2 ^ 32)
    (hok : (r.checkError a ≠ none ∨ r.Blocks a) ∨ r.resid = 0 ∨ 0 < sbspace r.sock.soSnd) :
    SendInv a data (r.check a) := by
  have hl := h.live (by rw [hphase]; exact not_false)
  have htop : r.top = [] := hl.top (by rw [hphase]; exact nofun)
  unfold SendRun.check
  split
  · exact .release h.right _
  rename_i herror
  by_cases hblocks : r.Blocks a
  · rw [if_pos hblocks]
    split
    · exact .release h.right _
    · exact ⟨⟨h.right.blocked, h.right.fits, h.right.bounded, h.right.pre⟩,
        fun _ => ⟨hl.resid, hl.parts, fun _ => htop, nofun⟩⟩
  rw [if_neg hblocks]
  have hgo : r.resid = 0 ∨ 0 < sbspace r.sock.soSnd := hok.resolve_left (not_or.mpr ⟨not_not.mpr herror, hblocks⟩)
  constructor
  · refine ⟨?_, ?_, h.right.bounded, h.right.pre⟩
    · rintro x hx hresid
      rcases List.mem_cons.mp hx with rfl | hx
      · exact hgo.resolve_left hresid
      · exact h.right.blocked x hx hresid
    · rintro hoob x hx
      rcases List.mem_cons.mp hx with rfl | hx
      · exact Nat.zero_le _
      · exact h.right.fits hoob x hx
  · refine fun _ => ⟨hl.resid, hl.parts, fun _ => htop, fun _ => ⟨_, _, rfl, ?_⟩⟩
    by_cases hresid : r.resid = 0
    · exact .inl ⟨hl.data_eq_nil hlen hresid, by simp [htop], rfl⟩
    have hpos := hgo.resolve_left hresid
    by_cases hclen : r.clen = 0
    · have hspace := toNat_spaceNow (a := a) hpos
      have hcc := cc_add_space h.right.bounded hpos
      refine .inr (.inr ⟨hpos, ?_, ?_⟩)
      · simp only [htop, hclen, chainLen_nil, BitVec.ofNat_eq_ofNat, BitVec.sub_zero]
        omega
      · simp only [htop, hclen, chainLen_nil, BitVec.ofNat_eq_ofNat, BitVec.sub_zero]
        omega
    · exact .inr (.inl ⟨hpos, rfl, hclen, by simp [htop]⟩)

theorem chainBytes_markEor (eor : Bool) (m : List Mbuf) : chainBytes (SendRun.markEor eor m) = chainBytes m := by
  cases m with
  | nil => rfl
  | cons x rest => simp [SendRun.markEor]

theorem fillLen_le_resid : r.fillLen a ≤ r.resid.toNat := by
  unfold SendRun.fillLen
  split
  · split
    · exact min_le_right _ _
    · exact min_le_right _ _
  · exact (min_le_left _ _).trans (min_le_right _ _)

theorem fillLen_le_fillCost : r.fillLen a ≤ r.fillCost a := by
  unfold SendRun.fillCost
  split
  · rename_i hcl
    unfold SendRun.fillLen
    rw [if_pos hcl]
    split
    · exact (min_le_left _ _).trans (Nat.sub_le _ _)
    · exact min_le_left _ _
  · exact le_rfl

theorem fillCost_le_space : r.fillCost a ≤ r.space.toNat := by
  unfold SendRun.fillCost
  split
  · rename_i hcl
    exact hcl.2
  · rename_i hcl
    unfold SendRun.fillLen
    rw [if_neg hcl]
    exact min_le_right _ _

theorem fillLen_le_cluster : r.fillLen a ≤ mCLBYTES := by
  unfold SendRun.fillLen
  split
  · split
    · exact (min_le_left _ _).trans (Nat.sub_le _ _)
    · exact min_le_left _ _
  · have hmlen : r.mlen ≤ mCLBYTES := by
      unfold SendRun.mlen
      split
      · decide
      · decide
    exact ((min_le_left _ _).trans (min_le_left _ _)).trans hmlen

theorem chainBytes_addMbuf : chainBytes (r.addMbuf a).top = chainBytes r.top ++ r.data.take (r.fillLen a) := by
  have hbytes : chainBytes (setPkthdr (· + (r.fillLen a : ℤ)) (r.top ++ [r.fillMbuf a])) =
      chainBytes r.top ++ r.data.take (r.fillLen a) := by
    rw [chainBytes_setPkthdr, chainBytes_append, chainBytes_cons, chainBytes_nil, List.append_nil]
    rfl
  unfold SendRun.addMbuf
  dsimp only
  split
  · rw [chainBytes_markEor, hbytes]
  · exact hbytes

/-- An mbuf more takes at least its bytes from the space. -/
theorem SendInv.addMbuf (h : SendInv a data r) (hphase : r.phase = .fill) (hlen : data.length < 2 ^ 32)
    (hatomic : a.atomic = false) : SendInv a data (r.addMbuf a) := by
  have hl := h.live (by rw [hphase]; exact not_false)
  have htop : r.top = [] := hl.top (by rw [hphase]; exact nofun)
  have hresid := hl.toNat_resid hlen
  have hle : r.fillLen a ≤ r.data.length := hresid ▸ fillLen_le_resid
  have hbytes := chainBytes_addMbuf (a := a) (r := r)
  have hchain : chainLen (r.addMbuf a).top = r.fillLen a := by
    rw [← length_chainBytes, hbytes, htop, chainBytes_nil, List.nil_append, List.length_take, min_eq_left hle]
  have hpass : (r.addMbuf a).phase = .pass := by
    simp [SendRun.addMbuf, hatomic]
  have hspace : (r.addMbuf a).space.toNat = r.space.toNat - r.fillCost a := by
    have hcost := fillCost_le_space (a := a) (r := r)
    have hlt := r.space.isLt
    have hnat : (BitVec.ofNat 32 (r.fillCost a)).toNat = r.fillCost a := by
      rw [BitVec.toNat_ofNat, Nat.mod_eq_of_lt (by omega)]
    change (r.space - BitVec.ofNat 32 (r.fillCost a)).toNat = _
    rw [BitVec.toNat_sub_of_le (by rw [BitVec.le_def, hnat]; exact hcost), hnat]
  refine ⟨⟨h.right.blocked, h.right.fits, h.right.bounded, h.right.pre⟩, fun _ => ⟨rfl, ?_, ?_, ?_⟩⟩
  · rw [hbytes]
    calc r.passed ++ (chainBytes r.top ++ r.data.take (r.fillLen a)) ++ r.data.drop (r.fillLen a)
        = r.passed ++ chainBytes r.top ++ r.data := by
          rw [← List.append_assoc, List.append_assoc, List.take_append_drop]
      _ = data := hl.parts
  · exact fun hne => absurd hpass hne
  · intro _
    obtain ⟨x, rest, hrounds, hbudget⟩ := hl.budget (.inl hphase)
    refine ⟨x, rest, hrounds, ?_⟩
    have hcost := fillCost_le_space (a := a) (r := r)
    have hless := fillLen_le_fillCost (a := a) (r := r)
    unfold Budget at hbudget ⊢
    rw [htop, chainLen_nil] at hbudget
    rw [hchain, hspace]
    rcases hbudget with ⟨hdata, -, hzero⟩ | ⟨hpos, hzero, hclen, -⟩ | ⟨hpos, hpassed, hcc⟩
    · refine .inl ⟨?_, ?_, hzero⟩
      · change r.data.drop _ = []
        rw [hdata, List.drop_nil]
      · rw [hdata, List.length_nil] at hle
        omega
    · exact .inr (.inl ⟨hpos, hzero, hclen, fillLen_le_cluster⟩)
    · refine .inr (.inr ⟨hpos, by omega, ?_⟩)
      change r.sock.soSnd.sbCc.toNat + _ + _ ≤ r.sock.soSnd.sbHiwat.toNat + _
      omega

theorem SendInv.fill (h : SendInv a data r) (hphase : r.phase = .fill) (hlen : data.length < 2 ^ 32)
    (hatomic : a.atomic = false) (huio : a.uio ≠ none) (e : SendEvent) : SendInv a data (r.fill a e) := by
  unfold SendRun.fill
  rw [if_neg huio]
  split
  · exact .of_over ⟨h.right.blocked, h.right.fits, h.right.bounded, h.right.pre⟩ trivial
  split
  · split
    · exact .of_over ⟨h.right.blocked, h.right.fits, h.right.bounded, h.right.pre⟩ trivial
    · exact h.addMbuf hphase hlen hatomic
  · exact h.addMbuf hphase hlen hatomic

/-! ### The call of `pr_usrreq` -/

/-- `tcp_usrreq` appends the bytes, or refuses them. -/
theorem usrreq_cases (error : ℤ) :
    ((r.usrreq a error).1 ≠ 0 ∧ (r.usrreq a error).2 = r.sock.soSnd) ∨
      (r.clen = 0 ∧ r.usrreq a error = (error, sbappend r.sock.soSnd r.top)) := by
  unfold SendRun.usrreq
  have heinval : -eINVAL ≠ 0 := by decide
  have henobufs : -eNOBUFS ≠ 0 := by decide
  by_cases hclen : r.clen ≠ 0
  · rw [if_pos hclen]
    exact .inl ⟨heinval, rfl⟩
  · rw [if_neg hclen]
    split
    · exact .inl ⟨heinval, rfl⟩
    split
    · exact .inl ⟨henobufs, rfl⟩
    · exact .inr ⟨not_not.mp hclen, rfl⟩

theorem CcBounded.sbappend {m : List Mbuf} (h : sb.sbCc.toNat + chainLen m ≤ sb.sbHiwat.toNat + mCLBYTES) :
    CcBounded (Net.sbappend sb m) := by
  unfold CcBounded
  rw [sbCc_sbappend, sbHiwat_sbappend, BitVec.toNat_add, BitVec.toNat_ofNat, Nat.add_mod_mod]
  exact (Nat.mod_le _ _).trans h

theorem slack_le : a.slack ≤ mCLBYTES := by
  unfold SendArgs.slack
  split
  · decide
  · decide

/-- What a round may pass on is right for it, and the buffer has room. -/
theorem Budget.passed (h : Budget a r x) (hoob : a.oob = false) : x.passed + chainLen r.top ≤ clusterCeil x.space := by
  rcases h with ⟨-, htop, hpassed⟩ | ⟨hpos, hpassed, -, htop⟩ | ⟨hpos, hpassed, -⟩
  · omega
  · have hceil := clusterCeil_pos hpos
    omega
  · have hslack : a.slack = 0 := by simp [SendArgs.slack, hoob]
    exact le_clusterCeil (by omega)

theorem Budget.cc (h : Budget a r x) (hb : CcBounded r.sock.soSnd) (hclen : r.clen = 0) :
    r.sock.soSnd.sbCc.toNat + chainLen r.top ≤ r.sock.soSnd.sbHiwat.toNat + mCLBYTES := by
  have hslack := slack_le (a := a)
  unfold CcBounded at hb
  rcases h with ⟨-, htop, -⟩ | ⟨-, -, hne, -⟩ | ⟨-, -, hcc⟩
  · omega
  · exact absurd hclen hne
  · omega

/-- The call of `pr_usrreq`. -/
theorem SendInv.pass (h : SendInv a data r) (hphase : r.phase = .pass) (e : SendEvent) : SendInv a data (r.pass a e) := by
  have hl := h.live (by rw [hphase]; exact not_false)
  obtain ⟨x, rest, hrounds, hbudget⟩ := hl.budget (.inr hphase)
  have hmem : ∀ y ∈ rest, y ∈ r.rounds := fun y hy => hrounds ▸ List.mem_cons_of_mem x hy
  have hx : x ∈ r.rounds := hrounds ▸ List.mem_cons_self
  have hparts := hl.parts
  set y : SendRound := { x with passed := x.passed + chainLen r.top } with hy
  -- whatever `tcp_usrreq` does
  have hright : ∀ s : SendRun, s.rounds = y :: rest → s.passed = r.passed ++ chainBytes r.top →
      CcBounded s.sock.soSnd → SendRight a data s := by
    intro s hs hpassed hb
    refine ⟨?_, ?_, hb, ?_⟩
    · intro z hz hresid
      rw [hs] at hz
      rcases List.mem_cons.mp hz with rfl | hz
      · exact h.right.blocked x hx hresid
      · exact h.right.blocked z (hmem z hz) hresid
    · intro hoob z hz
      rw [hs] at hz
      rcases List.mem_cons.mp hz with rfl | hz
      · exact hbudget.passed hoob
      · exact h.right.fits hoob z (hmem z hz)
    · rw [hpassed, ← hparts]
      exact List.prefix_append _ _
  unfold SendRun.pass
  rw [hrounds]
  rcases usrreq_cases (a := a) (r := r) e.error with ⟨herror, hsock⟩ | ⟨hclen, husrreq⟩
  · dsimp only
    rw [if_pos herror, hsock]
    exact .of_over (hright _ rfl rfl h.right.bounded) trivial
  have hb : CcBounded (sbappend r.sock.soSnd r.top) := .sbappend (hbudget.cc h.right.bounded hclen)
  rw [husrreq]
  dsimp only
  split
  · exact .of_over (hright _ rfl rfl hb) trivial
  split
  · rename_i hresid
    refine ⟨hright _ rfl rfl hb, fun _ => ⟨hl.resid, ?_, fun _ => rfl, fun hnext => ⟨y, rest, rfl, ?_⟩⟩⟩
    · rw [chainBytes_nil, List.append_nil]
      exact hparts
    · rcases hbudget with ⟨hdata, -, -⟩ | ⟨-, -, hne, -⟩ | ⟨hpos, hpassed, hcc⟩
      · rw [hl.resid, hdata] at hresid
        exact absurd rfl hresid
      · exact absurd hclen hne
      · refine .inr (.inr ⟨hpos, ?_, ?_⟩)
        · change x.passed + chainLen r.top + chainLen [] + r.space.toNat ≤ _
          rw [chainLen_nil]
          exact hpassed
        · change (sbappend r.sock.soSnd r.top).sbCc.toNat + chainLen [] + r.space.toNat ≤
            (sbappend r.sock.soSnd r.top).sbHiwat.toNat + _
          rw [sbCc_sbappend, sbHiwat_sbappend, BitVec.toNat_add, BitVec.toNat_ofNat, Nat.add_mod_mod, chainLen_nil]
          have hmod := Nat.mod_le (r.sock.soSnd.sbCc.toNat + chainLen r.top) (2 ^ 32)
          omega
  · exact .of_over (hright _ rfl rfl hb) trivial

theorem SendInv.act (h : SendInv a data r) (hlen : data.length < 2 ^ 32) (hatomic : a.atomic = false)
    (huio : a.uio ≠ none) (hok : r.LookOk a) (e : SendEvent) : SendInv a data (r.act a e) := by
  have hright : ∀ sb : SockBuf, CcBounded sb → ∀ phase, SendRight a data { r with phase, sock.soSnd := sb } :=
    fun _ hb _ => ⟨h.right.blocked, h.right.fits, hb, h.right.pre⟩
  have hlook : ∀ sb : SockBuf, ∀ phase, ¬ r.phase.Over → r.phase ≠ .pass → ¬ (phase = .fill ∨ phase = .pass) →
      SendLive a data { r with phase, sock.soSnd := sb } := by
    intro sb phase hlive hpass hphase
    have hl := h.live hlive
    exact ⟨hl.resid, hl.parts, fun _ => hl.top hpass, fun hnext => absurd hnext hphase⟩
  unfold SendRun.act
  split
  · rename_i hphase
    exact ⟨hright { r.sock.soSnd with sbLock := true } h.right.bounded _,
      fun _ => hlook { r.sock.soSnd with sbLock := true } _ (hphase ▸ not_false) (hphase ▸ nofun) nofun⟩
  · rename_i hphase
    exact h.check hphase hlen (hok hphase)
  · rename_i hphase
    split
    · exact .of_over (hright r.sock.soSnd h.right.bounded _) trivial
    · exact ⟨hright r.sock.soSnd h.right.bounded _,
        fun _ => hlook r.sock.soSnd _ (hphase ▸ not_false) (hphase ▸ nofun) nofun⟩
  · rename_i hphase
    exact h.fill hphase hlen hatomic huio e
  · rename_i hphase
    exact h.pass hphase e
  · exact h
  · exact h

/-- **A step that finds space keeps to it.** -/
theorem SendInv.step (h : SendInv a data r) (hlen : data.length < 2 ^ 32) (hatomic : a.atomic = false)
    (huio : a.uio ≠ none) (hrely : SendRely r e) (hok : SendOk a r e) : SendInv a data (r.step a e) :=
  (h.rely hrely).act hlen hatomic huio hok e

/-- A look at the buffer that takes a negative space for a large one. -/
theorem SendRight.not_of_act (hok : ¬ r.LookOk a) : ¬ SendRight a data (r.act a e) := by
  unfold SendRun.LookOk at hok
  push Not at hok
  obtain ⟨hphase, ⟨herror, hblocks⟩, hresid, hspace⟩ := hok
  have hact : r.act a e = r.check a := by
    unfold SendRun.act
    rw [hphase]
  have hcheck : (r.check a).rounds = ⟨sbspace r.sock.soSnd, r.resid, 0⟩ :: r.rounds := by
    unfold SendRun.check
    rw [herror, if_neg hblocks]
  intro hright
  rw [hact] at hright
  have hpos := hright.blocked ⟨sbspace r.sock.soSnd, r.resid, 0⟩ (hcheck ▸ List.mem_cons_self) hresid
  exact absurd hpos (not_lt.mpr hspace)

theorem sendInv_start (sock : SendSock) (hb : CcBounded sock.soSnd) (hatomic : a.atomic = false)
    (huio : a.uio = some data) : SendInv a data (.start a sock) := by
  have htop : a.top = [] := by
    have hand : a.prAtomic = false ∧ a.top.isEmpty = true := by simpa [SendArgs.atomic] using hatomic
    exact List.isEmpty_iff.mp hand.2
  refine ⟨⟨nofun, fun _ => nofun, hb, List.nil_prefix⟩, fun _ => ⟨?_, ?_, fun _ => htop, ?_⟩⟩
  · simp [SendRun.start, huio]
  · simp [SendRun.start, huio, htop]
  · intro hphase
    simp [SendRun.start, huio] at hphase

end

/-- A connected socket with a buffer. -/
def sendSock (soSnd : SockBuf) : SendSock where
  soSnd := soSnd
  sbLowat := 2048
  soError := 0
  ssCantSendMore := false
  ssIsConnected := true
  ssIsConfirming := false
  ssNbio := false
  soPcb := true

/-- A buffer of 8192 bytes, whose mbufs may take 16384. -/
def sendBuf (record : List Mbuf) : SockBuf where
  sbCc := BitVec.ofNat 32 (chainLen record)
  sbMbcnt := BitVec.ofNat 32 (chainSize record)
  sbHiwat := 8192
  sbMbmax := 16384
  sbLock := false
  sbMb := if record = [] then [] else [record]

/-- Bytes are written to a stream. -/
def streamSend (data : List Byte) : SendArgs where
  prAtomic := false
  prConnrequired := true
  addr := false
  uio := some data
  top := []
  clen := 0
  oob := false
  eor := false
  maxHdr := 56

/-- Nothing goes wrong. -/
def sendEvent (soSnd : SockBuf) : SendEvent where
  sock := sendSock soSnd
  mget := true
  mclget := true
  copyFails := none
  error := 0

/-- Seven writes of 300 bytes, and one of 1152 in small mbufs. -/
def smallWrites : List Mbuf :=
  List.replicate 7 ⟨1, true, false, some 300, 0, List.replicate 300 0⟩ ++
    List.replicate 11 ⟨1, false, false, some 100, 8, List.replicate 100 0⟩ ++
    [⟨1, false, false, some 52, 8, List.replicate 52 0⟩]

end Shaunos.Net
