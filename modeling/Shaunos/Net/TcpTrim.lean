import Shaunos.Common.Serial
import Shaunos.Net.Tcp

/-!
# Trimming to the receive window

Reference: `Kernel/netinet/tcp_input.c` (`tcp_input`, from `todrop = tp->rcv_nxt - ti->ti_seq` on).
-/

namespace Shaunos.Net

/-! ## The code -/

def tcpISSINCR : ℕ := 250 * 1024

/-- How the trimming of a segment ends. -/
inductive Trimmed (μ : Type*) where
  /-- `drop`: nothing is sent. -/
  | drop
  /-- The segment is freed and `tcp_output` is called. -/
  | output (tp : Tcpcb)
  /-- After `tcp_close`, `dropwithreset`. -/
  | reset (ti : Tcpiphdr) (tiflags : TcpFlags)
  /-- After `tcp_close`, `findpcb` with an initial sequence number. -/
  | reopen (iss : BitVec 32) (ti : Tcpiphdr) (tiflags : TcpFlags)
  /-- The segment goes on, with `tiflags` for its flags. -/
  | pass (tp : Tcpcb) (ti : Tcpiphdr) (tiflags : TcpFlags) (m : μ)

section

variable {μ : Type*}

/-- `dropafterack`. -/
def dropafterack (tp : Tcpcb) (tiflags : TcpFlags) : Trimmed μ :=
  if tiflags.thRst then .drop else .output { tp with tfAckNow := true }

variable (adj : μ → ℤ → μ)

/-- What lies before `rcv_nxt` is cut off; `adj` is `m_adj`. -/
def trimLeft (tp : Tcpcb) (ti : Tcpiphdr) (tiflags : TcpFlags) (m : μ) :
    Tcpcb × Tcpiphdr × TcpFlags × μ :=
  let todrop := (tp.rcvNxt - ti.tiSeq).toInt
  if todrop > 0 then
    -- a SYN is the first to go
    let syn := tiflags.thSyn
    let tiSeq := if syn then ti.tiSeq + 1 else ti.tiSeq
    let tiUrp := if syn ∧ ti.tiUrp.toNat > 1 then ti.tiUrp - 1 else ti.tiUrp
    let thUrg := tiflags.thUrg && !(syn && decide (ti.tiUrp.toNat ≤ 1))
    let todrop := if syn then todrop - 1 else todrop
    let full := decide (todrop > ti.tiLen.toInt ∨ (todrop = ti.tiLen.toInt ∧ tiflags.thFin = false))
    let todrop := if full then ti.tiLen.toInt else todrop
    ({ tp with tfAckNow := full || tp.tfAckNow },
      { ti with
        tiSeq := tiSeq + BitVec.ofInt 32 todrop
        tiLen := BitVec.ofInt 16 (ti.tiLen.toInt - todrop)
        tiUrp := if tiUrp.toNat > todrop then tiUrp - BitVec.ofInt 16 todrop else 0 },
      { tiflags with
        thSyn := false
        thFin := tiflags.thFin && !full
        thUrg := thUrg && decide (tiUrp.toNat > todrop) }, adj m todrop)
  else (tp, ti, tiflags, m)

/-- `todrop` bytes are cut off at the end, and a FIN with them. -/
def cutRight (tp : Tcpcb) (ti : Tcpiphdr) (tiflags : TcpFlags) (m : μ) (todrop : ℤ) : Trimmed μ :=
  .pass tp { ti with tiLen := BitVec.ofInt 16 (ti.tiLen.toInt - todrop) }
    { tiflags with thPush := false, thFin := false } (adj m (-todrop))

/-- What lies behind the window is cut off. -/
def trimRight (tp : Tcpcb) (ti : Tcpiphdr) (tiflags : TcpFlags) (m : μ) : Trimmed μ :=
  let todrop := (ti.tiSeq + ti.tiLen.signExtend 32 - (tp.rcvNxt - tp.rcvWnd)).toInt
  if todrop > 0 then
    if todrop ≥ ti.tiLen.toInt then
      if tiflags.thSyn ∧ tp.tState = .timeWait ∧ seqGT ti.tiSeq tp.rcvNxt then
        .reopen (tp.rcvNxt + BitVec.ofNat 32 tcpISSINCR) ti tiflags
      else if tp.rcvWnd = 0 ∧ ti.tiSeq = tp.rcvNxt then
        cutRight adj { tp with tfAckNow := true } ti tiflags m todrop
      else dropafterack tp tiflags
    else cutRight adj tp ti tiflags m todrop
  else .pass tp ti tiflags m

/-- Trimming as a whole. -/
def trim (so : Socket) (tp : Tcpcb) (ti : Tcpiphdr) (tiflags : TcpFlags) (m : μ) : Trimmed μ :=
  let (tp, ti, tiflags, m) := trimLeft adj tp ti tiflags m
  if so.ssNofdref ∧ TcpState.closeWait.num < tp.tState.num ∧ ti.tiLen ≠ 0 then .reset ti tiflags
  else trimRight adj tp ti tiflags m

/-- Do something with the data that goes on. -/
def Trimmed.map {ν : Type*} (f : μ → ν) : Trimmed μ → Trimmed ν
  | .drop => .drop
  | .output tp => .output tp
  | .reset ti tiflags => .reset ti tiflags
  | .reopen iss ti tiflags => .reopen iss ti tiflags
  | .pass tp ti tiflags m => .pass tp ti tiflags (f m)

/-- What trimming does does not depend on what the data is. -/
theorem trim_map {ν : Type*} {adj : μ → ℤ → μ} {adj' : ν → ℤ → ν} {f : μ → ν}
    (hf : ∀ m k, f (adj m k) = adj' (f m) k) (so : Socket) (tp : Tcpcb) (ti : Tcpiphdr)
    (tiflags : TcpFlags) (m : μ) :
    (trim adj so tp ti tiflags m).map f = trim adj' so tp ti tiflags (f m) := by
  have hright : ∀ tp ti tiflags m,
      (trimRight adj tp ti tiflags m).map f = trimRight adj' tp ti tiflags (f m) := by
    intro tp ti tiflags m
    have hcut : ∀ tp todrop, (cutRight adj tp ti tiflags m todrop).map f =
        cutRight adj' tp ti tiflags (f m) todrop := by
      intro tp todrop
      rw [cutRight, cutRight, ← hf]
      rfl
    have hdrop : (dropafterack tp tiflags).map f = dropafterack tp tiflags := by
      rw [dropafterack, dropafterack, apply_ite (Trimmed.map f)]
      rfl
    rw [trimRight, trimRight]
    simp only [apply_ite (Trimmed.map f), hcut, hdrop]
    rfl
  rw [trim, trim, trimLeft, trimLeft]
  dsimp only
  split <;> dsimp only <;> rw [apply_ite (Trimmed.map f), hright]
  · rw [hf]
    rfl
  · rfl

end

/-- Trimming on a chain of mbufs, and on its bytes. -/
theorem chainBytes_trim (so : Socket) (tp : Tcpcb) (ti : Tcpiphdr) (tiflags : TcpFlags)
    (m : List Mbuf) :
    (trim mAdj so tp ti tiflags m).map chainBytes =
      trim adjust so tp ti tiflags (chainBytes m) :=
  trim_map chainBytes_mAdj so tp ti tiflags m

/-! ## What trimming should do -/

/-- A segment as it comes in. The lengths of IP leave 65495 bytes for data. -/
structure Segment (α : Type*) where
  ti : Tcpiphdr
  data : List α
  length_le : data.length ≤ 65495
  tiLen_eq : ti.tiLen = BitVec.ofNat 16 data.length

namespace Segment

variable {α : Type*} (s : Segment α)

/-- The sequence number of the first byte, behind a SYN. -/
def first : BitVec 32 := s.ti.tiSeq + if s.ti.tiFlags.thSyn then 1 else 0

/-- The bytes with their sequence numbers. -/
def bytes : List (BitVec 32 × α) := numbered s.first s.data

/-- The sequence number of a FIN. -/
def finSeq : BitVec 32 := s.first + BitVec.ofNat 32 s.data.length

/-- The sequence numbers that the segment takes. If it takes none, it counts where it is. -/
def seqs : List (BitVec 32) :=
  (if s.ti.tiFlags.thSyn ∨ (s.data = [] ∧ s.ti.tiFlags.thFin = false) then [s.ti.tiSeq] else []) ++
    s.bytes.map Prod.fst ++ if s.ti.tiFlags.thFin then [s.finSeq] else []

end Segment

/-- A sequence number that the connection waits for. -/
def Tcpcb.InWnd (tp : Tcpcb) (n : BitVec 32) : Prop := InWindow tp.rcvNxt tp.rcvWnd n

instance (tp : Tcpcb) (n : BitVec 32) : Decidable (tp.InWnd n) :=
  inferInstanceAs (Decidable (InWindow ..))

namespace Trimmed

variable {α : Type*}

/-- The data that goes on. -/
def kept : Trimmed (List α) → List α
  | pass _ _ _ m => m
  | _ => []

/-- A FIN goes on. -/
def fin : Trimmed (List α) → Bool
  | pass _ _ tiflags _ => tiflags.thFin
  | _ => false

/-- The header that goes on is that of the data. -/
def Described : Trimmed (List (BitVec 32 × α)) → Prop
  | pass _ ti tiflags m =>
      ti.tiLen.toInt = m.length ∧ ∀ x ∈ m.head?, x.1 = ti.tiSeq + if tiflags.thSyn then 1 else 0
  | _ => True

/-- Nothing goes on, and an ACK is sent. -/
def Acked : Trimmed (List α) → Prop
  | output _ => True
  | pass tp _ tiflags m => m = [] ∧ tiflags.thFin = false ∧ tiflags.thRst = false ∧ tp.tfAckNow
  | _ => False

end Trimmed

/-- The data that goes on is that in the window, the header describes it, a FIN goes on if it is in the
window, and a segment with nothing in the window is acknowledged, if it is not a window probe. -/
structure Trims {α : Type*} (tp : Tcpcb) (s : Segment α) (t : Trimmed (List (BitVec 32 × α))) :
    Prop where
  kept : t.kept = s.bytes.filter fun x => tp.InWnd x.1
  described : t.Described
  fin : t.fin = (s.ti.tiFlags.thFin && decide (tp.InWnd s.finSeq))
  acked : (∀ n ∈ s.seqs, ¬ tp.InWnd n) → ¬ (tp.rcvWnd = 0 ∧ s.ti.tiSeq = tp.rcvNxt) → t.Acked

/-! ## When it does -/

/-- What trimming looks at, with places seen from `rcv_nxt`. -/
structure TrimIn where
  /-- Where the segment starts. -/
  dist : ℕ
  /-- The number of bytes. -/
  len : ℕ
  wnd : ℕ
  syn : Bool
  fin : Bool
  rst : Bool
  /-- The user is gone. -/
  gone : Bool
  timeWait : Bool
  ackNow : Bool

namespace TrimIn

variable (t : TrimIn)

/-- The place of the first byte. -/
def first : ℕ := t.dist + t.syn.toNat

/-- How many bytes come before `rcv_nxt`, for a segment that starts before it. -/
def old : ℕ := 2 ^ 32 - t.first

/-- All of the segment comes before `rcv_nxt`. -/
def Dup : Prop := t.len < t.old ∨ (t.len = t.old ∧ t.fin = false)

instance : Decidable t.Dup := inferInstanceAs (Decidable (_ ∨ _))

/-- For a segment that starts before `rcv_nxt`. -/
def LeftOk : Prop :=
  if t.len < 2 ^ 15 then
    if t.Dup then t.rst = false
    else (t.gone = true → t.len = t.old) ∧
      ((t.wnd = 0 ∧ t.old < t.len ∧ t.rst = false) ∨ 2 ^ 31 + t.old ≤ t.wnd + t.len)
  else
    -- `ti_len` is negative
    if t.old + 2 ^ 16 < t.wnd + t.len ∨ t.wnd + t.len + 2 ^ 31 < t.old + 2 ^ 16 then
      t.Dup ∧ t.rst = false
    else t.len = 2 ^ 15 ∧ (t.wnd = 0 ∨ t.Dup) ∧ t.rst = false

/-- For a segment that does not start before `rcv_nxt`. -/
def RightOk : Prop :=
  if t.gone = true ∧ t.len ≠ 0 then
    t.wnd ≤ t.first ∧ (t.dist < t.wnd ∨ (t.dist = 0 ∧ t.wnd = 0))
  else if t.len < 2 ^ 15 then
    if t.dist + t.len + t.wnd = 0 then t.fin = false
    else if t.dist + t.len + t.wnd < 2 ^ 31 then
      (t.dist = 0 ∧ t.wnd = 0) ∨
        ((t.wnd ≤ t.first ∨ (t.len = 0 ∧ t.fin = false)) ∧
          (t.rst = true ∨ (t.syn = true ∧ t.timeWait = true ∧ 0 < t.dist) → t.dist < t.wnd))
    else t.dist + t.len + t.wnd ≤ 2 ^ 32 ∧ (0 < t.len → t.first + t.len ≤ t.wnd) ∧
      (t.fin = true → t.first + t.len < t.wnd) ∧
      (t.len = 0 → t.fin = false → t.wnd ≤ t.dist → t.ackNow = true ∧ t.rst = false)
  else
    2 ^ 16 < t.dist + t.len + t.wnd ∧ t.dist + t.len + t.wnd < 2 ^ 31 + 2 ^ 16 ∧ t.wnd ≤ t.first ∧
      (t.rst = true ∨ (t.syn = true ∧ t.timeWait = true ∧ 0 < t.dist ∧ t.dist < 2 ^ 31) →
        t.dist < t.wnd)

/-- When trimming is right. -/
def Ok : Prop := if 2 ^ 31 < t.dist then t.LeftOk else t.RightOk

end TrimIn

/-- What trimming looks at in a segment. -/
def Segment.trimIn {α : Type*} (s : Segment α) (so : Socket) (tp : Tcpcb) : TrimIn where
  dist := (s.ti.tiSeq - tp.rcvNxt).toNat
  len := s.data.length
  wnd := tp.rcvWnd.toNat
  syn := s.ti.tiFlags.thSyn
  fin := s.ti.tiFlags.thFin
  rst := s.ti.tiFlags.thRst
  gone := so.ssNofdref && TcpState.closeWait.num < tp.tState.num
  timeWait := tp.tState = .timeWait
  ackNow := tp.tfAckNow

end Shaunos.Net
