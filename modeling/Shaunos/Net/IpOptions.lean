import Shaunos.Common.LoggedMem
import Shaunos.Common.RecordWalk
import Shaunos.Net.Mbuf

/-!
# The options of a packet

Reference: `Kernel/netinet/ip_input.c` (`ip_do_options`, `save_rte`), `Include/kernel/sys/netinet/ip.h`.

Places are counted from the IP header on. Every use of the packet through `cp` is logged, and so is every address
and time that is recorded.

* `doOptionsRight_iff` — the packets whose options are recorded as they should be.
-/

namespace Shaunos.Net

/-! ## The code -/

def ipoptEOL : Byte := 0
def ipoptNOP : Byte := 1
def ipoptRR : Byte := 7
def ipoptTS : Byte := 68
def ipoptLSRR : Byte := 131
def ipoptSSRR : Byte := 137

def ipoptOLEN : ℕ := 1
def ipoptOFFSET : ℕ := 2
def ipoptMINOFF : ℕ := 4

def sizeofIp : ℕ := 20
def mAX_IPOPTLEN : ℕ := 40

def icmpUNREACH : ℕ := 3
def icmpPARAMPROB : ℕ := 12
def icmpUNREACHHOST : ℕ := 1
def icmpUNREACHSRCFAIL : ℕ := 5

/-- What other parts of the kernel know: interfaces and routes, each by the address of an interface, and the time. -/
structure IpEnv where
  ifaIfwithaddr : BitVec 32 → Option (BitVec 32)
  ifaIfwithdstaddr : BitVec 32 → Option (BitVec 32)
  ifaIfwithnet : BitVec 32 → Option (BitVec 32)
  /-- `ifaof_ifpforaddr`, for the interface that the packet came from. -/
  ifaofIfpforaddr : BitVec 32 → Option (BitVec 32)
  ipRtaddr : BitVec 32 → Option (BitVec 32)
  iptime : BitVec 32

/-- Something was recorded in an option. -/
structure Recorded where
  /-- Where the option starts. -/
  opt : ℕ
  optlen : ℕ
  /-- The pointer to the first slot that such an option can have. -/
  first : ℕ
  /-- The pointer as it was. -/
  ptr : ℕ
  /-- The bytes of the slot that are not written. -/
  skip : ℕ
  data : List Byte

/-- `ip_srcrt` and `ip_nhops`. -/
structure IpSrcrt where
  srcopt : List Byte
  nhops : ℕ
  dst : BitVec 32

/-- The packet, and what `ip_do_options` has done so far. -/
structure IpOptState where
  mem : ℕ → Byte
  forward : Bool
  srcrt : Option IpSrcrt
  /-- `icmp_error`, with type and code. -/
  bad : Option (ℕ × ℕ)
  /-- What was read and written, each with a number of bytes. No code reads this. -/
  accesses : List (ℕ × ℕ)
  /-- What was recorded. No code reads this. -/
  recorded : List Recorded

namespace IpOptState

variable (s : IpOptState)

/-- Bytes are read. -/
def look (p n : ℕ) : IpOptState := { s with accesses := (p, n) :: s.accesses }

/-- Bytes are written. -/
def store (p : ℕ) (data : List Byte) : IpOptState :=
  { s with
    mem := fun a => if p ≤ a then data.getD (a - p) (s.mem a) else s.mem a
    accesses := (p, data.length) :: s.accesses }

/-- The four bytes of an address. -/
def addr (p : ℕ) : BitVec 32 := s.mem (p + 3) ++ s.mem (p + 2) ++ s.mem (p + 1) ++ s.mem p

/-- `ip->ip_src`. -/
def ipSrc : BitVec 32 := s.addr 12

/-- `ip->ip_dst`. -/
def ipDst : BitVec 32 := s.addr 16

/-- Set `ip->ip_dst`. -/
def setIpDst (a : BitVec 32) : IpOptState :=
  { s with mem := fun p => if 16 ≤ p then (wordBytes a).getD (p - 16) (s.mem p) else s.mem p }

def setForward (forward : Bool) : IpOptState := { s with forward }

/-- `goto bad`. -/
def fail (type code : ℕ) : IpOptState × Option ℕ := ({ s with bad := some (type, code) }, none)

/-- `cp[IPOPT_OFFSET] += 4`. -/
def advance (p : ℕ) : IpOptState := s.store (p + ipoptOFFSET) [s.mem (p + ipoptOFFSET) + 4]

def note (r : Recorded) : IpOptState := { s with recorded := r :: s.recorded }

end IpOptState

/-- `off > optlen - sizeof (struct in_addr)`, on `size_t`. -/
def noRoom (off optlen : ℕ) : Bool := BitVec.ofNat 32 optlen - 4 < BitVec.ofNat 32 off

/-- `save_rte`. -/
def saveRte (s : IpOptState) (p : ℕ) (dst : BitVec 32) : IpOptState :=
  let olen := (s.mem (p + ipoptOLEN)).toNat
  let s := s.look (p + ipoptOLEN) 1
  if 39 < olen then s
  else { s.look p olen with
    srcrt := some ⟨(List.range olen).map fun i => s.mem (p + i), (olen - ipoptOFFSET - 1) / 4, dst⟩ }

section

variable (env : IpEnv)

/-- `IPOPT_RR`. -/
def ipoptRr (p optlen : ℕ) (s : IpOptState) : IpOptState × Option ℕ :=
  let ptr := (s.mem (p + ipoptOFFSET)).toNat
  let s := s.look (p + ipoptOFFSET) 1
  if ptr < ipoptMINOFF then s.fail icmpPARAMPROB (p + ipoptOFFSET)
  else if noRoom (ptr - 1) optlen then (s, some optlen)
  else
    match (env.ifaIfwithaddr s.ipDst).or (env.ipRtaddr s.ipDst) with
    | none => s.fail icmpUNREACH icmpUNREACHHOST
    | some ia =>
        (((s.store (p + (ptr - 1)) (wordBytes ia)).advance p).note ⟨p, optlen, ipoptMINOFF, ptr, 0, wordBytes ia⟩,
          some optlen)

/-- `IPOPT_LSRR` and `IPOPT_SSRR`. -/
def ipoptSr (strict : Bool) (p optlen : ℕ) (s : IpOptState) : IpOptState × Option ℕ :=
  let ptr := (s.mem (p + ipoptOFFSET)).toNat
  let s := s.look (p + ipoptOFFSET) 1
  if ptr < ipoptMINOFF then s.fail icmpPARAMPROB (p + ipoptOFFSET)
  else
    match env.ifaIfwithaddr s.ipDst with
    | none => if strict then s.fail icmpUNREACH icmpUNREACHSRCFAIL else (s, some optlen)
    | some _ =>
        if noRoom (ptr - 1) optlen then (saveRte s p s.ipSrc, some optlen)
        else
          let a := s.addr (p + (ptr - 1))
          let s := s.look (p + (ptr - 1)) 4
          match if strict then (env.ifaIfwithdstaddr a).or (env.ifaIfwithnet a) else env.ipRtaddr a with
          | none => s.fail icmpUNREACH icmpUNREACHSRCFAIL
          | some ia =>
              let s := ((s.setIpDst a).store (p + (ptr - 1)) (wordBytes ia)).advance p
              -- `IN_MULTICAST` of the new destination
              ((s.note ⟨p, optlen, ipoptMINOFF, ptr, 0, wordBytes ia⟩).setForward ((a.extractLsb' 0 8 &&& 0xf0) ≠ 0xe0),
                some optlen)

/-- The time is written where the pointer is by now. -/
def ipoptTsTime (p optlen ptr skip : ℕ) (data : List Byte) (s : IpOptState) : IpOptState × Option ℕ :=
  let now := (s.mem (p + ipoptOFFSET)).toNat
  let s := s.look (p + ipoptOFFSET) 1
  (((s.store (p + now - 1) (wordBytes env.iptime)).advance p).note
    ⟨p, optlen, 5, ptr, skip, data ++ wordBytes env.iptime⟩, some optlen)

/-- `IPOPT_TS`. `dst` is the destination that the packet came with. -/
def ipoptTs (dst : BitVec 32) (p optlen : ℕ) (s : IpOptState) : IpOptState × Option ℕ :=
  let code := p
  if optlen < 5 then s.fail icmpPARAMPROB code
  else
    let ptr := (s.mem (p + ipoptOFFSET)).toNat
    let s := s.look (p + ipoptOFFSET) 1
    if noRoom ptr optlen then
      let oflw := s.mem (p + 3) + 0x10
      let s := (s.look (p + 3) 1).store (p + 3) [oflw]
      if oflw.extractLsb' 4 4 = 0 then s.fail icmpPARAMPROB code else (s, some optlen)
    else
      let sin := p + ptr - 1
      let flg := (s.mem (p + 3)).extractLsb' 0 4
      let s := s.look (p + 3) 1
      if flg = 0 then ipoptTsTime env p optlen ptr 0 [] s
      else if flg = 1 then
        if optlen < ptr + 4 + 4 then s.fail icmpPARAMPROB code
        else
          match env.ifaofIfpforaddr dst with
          | none => (s, some optlen)
          | some ia => ipoptTsTime env p optlen ptr 0 (wordBytes ia) ((s.store sin (wordBytes ia)).advance p)
      else if flg = 3 then
        if optlen < ptr + 4 + 4 then s.fail icmpPARAMPROB code
        else
          let a := s.addr sin
          let s := s.look sin 4
          match env.ifaIfwithaddr a with
          | none => (s, some optlen)
          | some _ => ipoptTsTime env p optlen ptr 4 [] (s.advance p)
      else s.fail icmpPARAMPROB code

/-- The body of the loop; the options end at `e`. -/
def ipDoOption (dst : BitVec 32) (e p : ℕ) (s : IpOptState) : IpOptState × Option ℕ :=
  let opt := s.mem p
  let s := s.look p 1
  if opt = ipoptEOL then (s, none)
  else if opt = ipoptNOP then (s, some 1)
  else if e - p < ipoptOLEN + 1 then s.fail icmpPARAMPROB (p + ipoptOLEN)
  else
    let optlen := (s.mem (p + ipoptOLEN)).toNat
    let s := s.look (p + ipoptOLEN) 1
    if optlen ≤ ipoptOLEN + 1 ∨ e - p < optlen then s.fail icmpPARAMPROB (p + ipoptOLEN)
    else if opt = ipoptRR then ipoptRr env p optlen s
    else if opt = ipoptLSRR then ipoptSr env false p optlen s
    else if opt = ipoptSSRR then ipoptSr env true p optlen s
    else if opt = ipoptTS then ipoptTs env dst p optlen s
    else (s, some optlen)

/-- The loop of `ip_do_options`, with at most `fuel` options. -/
def ipDoOptions (e fuel : ℕ) (s : IpOptState) : Option IpOptState :=
  walk (ipDoOption env s.ipDst e) e fuel sizeofIp s

end

/-! ## What should happen -/

/-- Nothing has been done. -/
def IpOptState.start (mem : ℕ → Byte) (srcrt : Option IpSrcrt) : IpOptState := ⟨mem, false, srcrt, none, [], []⟩

/-- The bytes are in the options, which end at `e`. -/
def InOptions (e : ℕ) (x : ℕ × ℕ) : Prop := sizeofIp ≤ x.1 ∧ x.1 + x.2 ≤ e

namespace Recorded

/-- The slot is one of the option. -/
def InOption (r : Recorded) : Prop := r.first ≤ r.ptr ∧ r.ptr - 1 + r.skip + r.data.length ≤ r.optlen

/-- What was recorded stands where the pointer was, and the pointer is behind it. -/
def Filled (r : Recorded) (mem : ℕ → Byte) : Prop :=
  (∀ i (h : i < r.data.length), mem (r.opt + (r.ptr - 1) + r.skip + i) = r.data.get ⟨i, h⟩) ∧
    (mem (r.opt + ipoptOFFSET)).toNat = r.ptr + r.skip + r.data.length

end Recorded

/-- `ip_do_options` comes to an end, uses bytes of the options only, and all that was recorded stands where it should,
also if a problem is reported behind it. -/
def DoOptionsRight (env : IpEnv) (hl : BitVec 4) (mem : ℕ → Byte) (srcrt : Option IpSrcrt) : Prop :=
  let e := 4 * hl.toNat
  ∃ r, ipDoOptions env e (e + 1) (.start mem srcrt) = some r ∧ (∀ x ∈ r.accesses, InOptions e x) ∧
    ∀ x ∈ r.recorded, x.InOption ∧ x.Filled r.mem

section

variable (env : IpEnv) (dst : BitVec 32) (e p : ℕ) (s : IpOptState)

/-- There is a slot, or nothing is recorded. -/
def RrOk : Prop :=
  (s.mem (p + ipoptOLEN)).toNat = 3 → ipoptMINOFF ≤ (s.mem (p + ipoptOFFSET)).toNat →
    (env.ifaIfwithaddr s.ipDst).or (env.ipRtaddr s.ipDst) = none

/-- There is a slot, or nothing is recorded and the four bytes at the pointer are in the options. -/
def SrOk (strict : Bool) : Prop :=
  (s.mem (p + ipoptOLEN)).toNat = 3 → ipoptMINOFF ≤ (s.mem (p + ipoptOFFSET)).toNat →
    env.ifaIfwithaddr s.ipDst ≠ none →
    let a := s.addr (p + ((s.mem (p + ipoptOFFSET)).toNat - 1))
    p + (s.mem (p + ipoptOFFSET)).toNat + 3 ≤ e ∧
      (if strict then (env.ifaIfwithdstaddr a).or (env.ifaIfwithnet a) else env.ipRtaddr a) = none

/-- The pointer is at a slot, or nothing is recorded and the four bytes at the pointer are in the options. -/
def TsOk : Prop :=
  let len := (s.mem (p + ipoptOLEN)).toNat
  let ptr := (s.mem (p + ipoptOFFSET)).toNat
  let flg := (s.mem (p + 3)).extractLsb' 0 4
  5 ≤ len → ptr < 5 → ptr + 4 ≤ len →
    flg ≠ 0 ∧ (flg = 1 → ptr + 8 ≤ len → env.ifaofIfpforaddr dst = none) ∧
      (flg = 3 → ptr + 8 ≤ len → sizeofIp < p + ptr ∧ env.ifaIfwithaddr (s.addr (p + ptr - 1)) = none)

/-- An option that is complete is right. -/
structure IpOptionOk : Prop where
  rr : s.mem p = ipoptRR → RrOk env p s
  lsrr : s.mem p = ipoptLSRR → SrOk env e p s false
  ssrr : s.mem p = ipoptSSRR → SrOk env e p s true
  ts : s.mem p = ipoptTS → TsOk env dst p s

/-- The length byte of an option is there, and so are as many bytes as it says. -/
def CompleteOption : Prop :=
  p + 2 ≤ e ∧ 3 ≤ (s.mem (p + ipoptOLEN)).toNat ∧ p + (s.mem (p + ipoptOLEN)).toNat ≤ e

end

/-- All complete options that the loop comes to are right, in the packet as it is by then. -/
def IpOptionsOk (env : IpEnv) (hl : BitVec 4) (mem : ℕ → Byte) (srcrt : Option IpSrcrt) : Prop :=
  let e := 4 * hl.toNat
  let s := IpOptState.start mem srcrt
  ∀ p t, WalkReaches (ipDoOption env s.ipDst e) e sizeofIp s p t → CompleteOption e p t →
    IpOptionOk env s.ipDst e p t

section

variable {env : IpEnv} {dst a : BitVec 32} {e p q n optlen type code ptr skip : ℕ} {s s' s'' : IpOptState}
  {r : Recorded} {data : List Byte} {next : Option ℕ} {strict : Bool}

/-! ## What is not undone -/

/-- What was done stays in the log. -/
structure Grows (s s' : IpOptState) : Prop where
  accesses : s.accesses ⊆ s'.accesses
  recorded : s.recorded ⊆ s'.recorded

/-- Bytes outside of the options were used, or a slot outside of an option. -/
def Wrong (e : ℕ) (s : IpOptState) : Prop :=
  (∃ x ∈ s.accesses, ¬ InOptions e x) ∨ ∃ r ∈ s.recorded, ¬ r.InOption

theorem Wrong.mono (h : Wrong e s) (hgrows : Grows s s') : Wrong e s' :=
  h.imp (Exists.imp fun _ hx => hx.imp_left (hgrows.accesses ·)) (Exists.imp fun _ hr => hr.imp_left (hgrows.recorded ·))

namespace Grows

protected theorem refl (s : IpOptState) : Grows s s := ⟨List.Subset.refl _, List.Subset.refl _⟩

theorem look (h : Grows s s') : Grows s (s'.look p n) := ⟨List.subset_cons_of_subset _ h.accesses, h.recorded⟩

theorem store (h : Grows s s') : Grows s (s'.store p data) := ⟨List.subset_cons_of_subset _ h.accesses, h.recorded⟩

theorem advance (h : Grows s s') : Grows s (s'.advance p) := h.store

theorem setIpDst (h : Grows s s') : Grows s (s'.setIpDst a) := ⟨h.accesses, h.recorded⟩

theorem setForward {forward : Bool} (h : Grows s s') : Grows s (s'.setForward forward) := ⟨h.accesses, h.recorded⟩

theorem note (h : Grows s s') : Grows s (s'.note r) := ⟨h.accesses, List.subset_cons_of_subset _ h.recorded⟩

theorem fail (h : Grows s s') : Grows s (s'.fail type code).1 := ⟨h.accesses, h.recorded⟩

theorem saveRte (h : Grows s s') : Grows s (saveRte s' p a) := by
  rw [Net.saveRte]
  dsimp only
  split_ifs
  · exact h.look
  · exact ⟨h.look.look.accesses, h.recorded⟩

theorem ipoptRr (h : Grows s s') : Grows s (ipoptRr env p optlen s').1 := by
  rw [Net.ipoptRr]
  split_ifs
  · exact h.look.fail
  · exact h.look
  · split
    · exact h.look.fail
    · exact h.look.store.advance.note

theorem ipoptSr (h : Grows s s') : Grows s (ipoptSr env strict p optlen s').1 := by
  rw [Net.ipoptSr]
  dsimp only
  by_cases hptr : (s'.mem (p + ipoptOFFSET)).toNat < ipoptMINOFF
  · rw [if_pos hptr]
    exact h.look.fail
  rw [if_neg hptr]
  split
  · split_ifs
    · exact h.look.fail
    · exact h.look
  by_cases hroom : noRoom ((s'.mem (p + ipoptOFFSET)).toNat - 1) optlen = true
  · rw [if_pos hroom]
    exact h.look.saveRte
  rw [if_neg hroom]
  split
  · exact h.look.look.fail
  · exact h.look.look.setIpDst.store.advance.note.setForward

theorem ipoptTsTime (h : Grows s s') : Grows s (ipoptTsTime env p optlen ptr skip data s').1 := h.look.store.advance.note

theorem ipoptTs (h : Grows s s') : Grows s (ipoptTs env dst p optlen s').1 := by
  rw [Net.ipoptTs]
  dsimp only
  split_ifs
  · exact h.fail
  · exact h.look.look.store.fail
  · exact h.look.look.store
  · exact h.look.look.ipoptTsTime
  · exact h.look.look.fail
  · split
    · exact h.look.look
    · exact h.look.look.store.advance.ipoptTsTime
  · exact h.look.look.fail
  · split
    · exact h.look.look.look
    · exact h.look.look.look.advance.ipoptTsTime
  · exact h.look.look.fail

theorem ipDoOption (h : Grows s s') : Grows s (ipDoOption env dst e p s').1 := by
  rw [Net.ipDoOption]
  dsimp only
  split_ifs
  · exact h.look
  · exact h.look
  · exact h.look.fail
  · exact h.look.look.fail
  · exact h.look.look.ipoptRr
  · exact h.look.look.ipoptSr
  · exact h.look.look.ipoptSr
  · exact h.look.look.ipoptTs
  · exact h.look.look

end Grows

/-! ## What a right option does -/

/-- What is below `p` was left alone, and bytes of the options were used. -/
structure Inside (e p : ℕ) (s s' : IpOptState) : Prop where
  mem : ∀ a, sizeofIp ≤ a → a < p → s'.mem a = s.mem a
  accesses : ∀ x ∈ s'.accesses, x ∈ s.accesses ∨ InOptions e x

theorem mem_setIpDst (s : IpOptState) (a : BitVec 32) (hq : sizeofIp ≤ q) : (s.setIpDst a).mem q = s.mem q := by
  rw [IpOptState.setIpDst]
  dsimp only
  split_ifs
  · exact List.getD_eq_default _ _ (by rw [length_wordBytes]; exact Nat.le_sub_of_add_le hq)
  · rfl

namespace Inside

protected theorem refl (e p : ℕ) (s : IpOptState) : Inside e p s s := ⟨fun _ _ _ => rfl, fun _ hx => .inl hx⟩

theorem look (h : Inside e p s s') (hp : sizeofIp ≤ q) (hq : q + n ≤ e) : Inside e p s (s'.look q n) := by
  refine ⟨h.mem, fun x hx => ?_⟩
  rcases List.mem_cons.mp hx with rfl | hx
  · exact .inr ⟨hp, hq⟩
  · exact h.accesses x hx

theorem store (h : Inside e p s s') (hp : sizeofIp ≤ p) (hpq : p ≤ q) (hq : q + data.length ≤ e) :
    Inside e p s (s'.store q data) := by
  refine ⟨fun a ha hlt => ?_, fun x hx => ?_⟩
  · rw [← h.mem a ha hlt, IpOptState.store]
    exact if_neg (by omega)
  · rcases List.mem_cons.mp hx with rfl | hx
    · exact .inr ⟨hp.trans hpq, hq⟩
    · exact h.accesses x hx

theorem advance (h : Inside e p s s') (hp : sizeofIp ≤ p) (hq : p + 3 ≤ e) : Inside e p s (s'.advance p) :=
  h.store hp (Nat.le_add_right p 2) hq

theorem setIpDst (h : Inside e p s s') : Inside e p s (s'.setIpDst a) :=
  ⟨fun b hb hlt => (mem_setIpDst s' a hb).trans (h.mem b hb hlt), h.accesses⟩

theorem setForward {forward : Bool} (h : Inside e p s s') : Inside e p s (s'.setForward forward) :=
  ⟨h.mem, h.accesses⟩

theorem note (h : Inside e p s s') : Inside e p s (s'.note r) := ⟨h.mem, h.accesses⟩

theorem fail (h : Inside e p s s') : Inside e p s (s'.fail type code).1 := ⟨h.mem, h.accesses⟩

theorem saveRte (h : Inside e p s s') (hp : sizeofIp ≤ p) (hq : p + 2 ≤ e)
    (hlen : p + (s'.mem (p + ipoptOLEN)).toNat ≤ e) : Inside e p s (saveRte s' p a) := by
  have hlook := h.look (n := 1) (hp.trans (Nat.le_add_right p ipoptOLEN)) hq
  rw [Net.saveRte]
  dsimp only
  split_ifs
  · exact hlook
  · exact ⟨h.mem, (hlook.look hp hlen).accesses⟩

end Inside

/-- Nothing was recorded, or something that stands where it should in an option that starts at `p`. -/
structure OptionRight (e p : ℕ) (s s' : IpOptState) (next : Option ℕ) : Prop where
  inside : Inside e p s s'
  recorded : s'.recorded = s.recorded ∨ ∃ r, s'.recorded = r :: s.recorded ∧ r.opt = p ∧ next = some r.optlen ∧
    3 ≤ r.optlen ∧ r.InOption ∧ r.Filled s'.mem

theorem Inside.quiet (h : Inside e p s s') (hrec : s'.recorded = s.recorded) : OptionRight e p s s' next :=
  ⟨h, .inl hrec⟩

/-- The pointer does not move into its own place. -/
theorem mem_advance (s : IpOptState) (p q : ℕ) :
    (s.advance p).mem q = if q = p + ipoptOFFSET then s.mem q + 4 else s.mem q := by
  rw [IpOptState.advance, IpOptState.store]
  dsimp only
  split_ifs with hle heq heq
  · subst heq
    rw [Nat.sub_self]
    rfl
  · exact List.getD_eq_default _ _ (by rw [List.length_singleton]; omega)
  · omega
  · rfl

theorem mem_store_at {i : ℕ} (s : IpOptState) (p : ℕ) (h : i < data.length) :
    (s.store p data).mem (p + i) = data.get ⟨i, h⟩ := by
  rw [IpOptState.store]
  dsimp only
  rw [if_pos (Nat.le_add_right p i), Nat.add_sub_cancel_left, List.getD_eq_getElem _ _ h, List.get_eq_getElem]

theorem mem_store_below (s : IpOptState) (h : q < p) : (s.store p data).mem q = s.mem q :=
  if_neg (Nat.not_le.mpr h)

theorem Recorded.Filled.store {first : ℕ} {more : List Byte} (hptr : 4 ≤ ptr) (hmore : more.length = 4)
    (hlen : ptr + skip + data.length + 4 < 256) (h : Filled ⟨p, optlen, first, ptr, skip, data⟩ s.mem) :
    Filled ⟨p, optlen, first, ptr, skip, data ++ more⟩
      ((s.store (p + (ptr - 1) + skip + data.length) more).advance p).mem := by
  obtain ⟨hdata, hnow⟩ := h
  dsimp only at hdata hnow
  constructor
  · intro i hi
    dsimp only at hi ⊢
    rw [List.length_append] at hi
    rw [mem_advance, if_neg (by rw [ipoptOFFSET]; omega), List.get_eq_getElem]
    rcases Nat.lt_or_ge i data.length with hlt | hge
    · rw [mem_store_below s (by omega), hdata i hlt, List.getElem_append_left hlt, List.get_eq_getElem]
    · obtain ⟨j, rfl⟩ := Nat.exists_eq_add_of_le hge
      rw [← Nat.add_assoc _ data.length, mem_store_at s _ (show j < more.length by omega), List.get_eq_getElem,
        List.getElem_append_right hge]
      simp only [Nat.add_sub_cancel_left]
  · dsimp only
    rw [mem_advance, if_pos rfl, mem_store_below s (by rw [ipoptOFFSET]; omega), BitVec.toNat_add, hnow,
      List.length_append, hmore]
    have hfour : (4 : Byte).toNat = 4 := rfl
    omega

/-- The slot is skipped. -/
theorem Recorded.Filled.advance {first : ℕ} (hlen : ptr + 4 < 256)
    (h : Filled ⟨p, optlen, first, ptr, 0, []⟩ s.mem) : Filled ⟨p, optlen, first, ptr, 4, []⟩ (s.advance p).mem := by
  refine ⟨fun i hi => absurd hi (Nat.not_lt_zero i), ?_⟩
  have hnow := h.2
  dsimp only [List.length_nil, Nat.add_zero] at hnow ⊢
  have hfour : (4 : Byte).toNat = 4 := rfl
  rw [mem_advance, if_pos rfl, BitVec.toNat_add, hnow]
  omega

theorem filled_nil {first : ℕ} (h : (s.mem (p + ipoptOFFSET)).toNat = ptr) :
    Recorded.Filled ⟨p, optlen, first, ptr, 0, []⟩ s.mem :=
  ⟨fun i hi => absurd hi (Nat.not_lt_zero i), h⟩

/-- Four more bytes are recorded in the slot. -/
theorem OptionRight.note {first : ℕ} (hsmall : e ≤ 60) (hp : sizeofIp ≤ p) (he : p + optlen ≤ e) (hptr : 4 ≤ ptr)
    (hfirst : first ≤ ptr) (hfits : ptr + skip + data.length + 3 ≤ optlen) (h : Inside e p s s')
    (hrec : s'.recorded = s.recorded) (hfilled : Recorded.Filled ⟨p, optlen, first, ptr, skip, data⟩ s'.mem)
    (v : BitVec 32) :
    OptionRight e p s (((s'.store (p + (ptr - 1) + skip + data.length) (wordBytes v)).advance p).note
      ⟨p, optlen, first, ptr, skip, data ++ wordBytes v⟩) (some optlen) where
  inside := by
    refine ((h.store hp (by omega) ?_).advance hp (by omega)).note
    rw [length_wordBytes]
    omega
  recorded := by
    refine .inr ⟨_, congrArg (List.cons _) hrec, rfl, rfl, by dsimp only; omega, ⟨hfirst, ?_⟩, ?_⟩
    · dsimp only
      rw [List.length_append, length_wordBytes]
      omega
    · exact hfilled.store hptr (length_wordBytes v) (by rw [sizeofIp] at hp; omega)

theorem OptionRight.setForward {forward : Bool} (h : OptionRight e p s s' next) :
    OptionRight e p s (s'.setForward forward) next := ⟨h.inside.setForward, h.recorded⟩

/-! ## The test for room -/

theorem noRoom_iff {off : ℕ} (hlen : 4 ≤ optlen) (hlt : optlen < 256) (hoff : off < 256) :
    noRoom off optlen = true ↔ optlen < off + 4 := by
  have hfour : (4 : BitVec 32).toNat = 4 := rfl
  rw [noRoom, decide_eq_true_eq, BitVec.lt_def, BitVec.toNat_sub, BitVec.toNat_ofNat, BitVec.toNat_ofNat, hfour]
  omega

/-- There is always room in an option of three bytes. -/
theorem noRoom_three (off : ℕ) : noRoom off 3 = false := by
  have hfour : (4 : BitVec 32).toNat = 4 := rfl
  rw [noRoom, decide_eq_false_iff_not, BitVec.lt_def, BitVec.toNat_sub, BitVec.toNat_ofNat, BitVec.toNat_ofNat, hfour]
  omega

/-! ## The kinds of options -/

/-- The address stands at the pointer. -/
theorem right_ipoptRr (hsmall : e ≤ 60) (hp : sizeofIp ≤ p) (hlen : (s.mem (p + ipoptOLEN)).toNat = optlen) (hthree : 3 ≤ optlen)
    (he : p + optlen ≤ e) (hok : RrOk env p s) :
    OptionRight e p s (ipoptRr env p optlen s).1 (ipoptRr env p optlen s).2 := by
  have hlt := (s.mem (p + ipoptOLEN)).isLt
  have hltptr := (s.mem (p + ipoptOFFSET)).isLt
  have hlook : Inside e p s (s.look (p + ipoptOFFSET) 1) :=
    (Inside.refl e p s).look (hp.trans (Nat.le_add_right p 2)) (by rw [ipoptOFFSET]; omega)
  rw [ipoptRr]
  by_cases hptr : (s.mem (p + ipoptOFFSET)).toNat < ipoptMINOFF
  · rw [if_pos hptr]
    exact hlook.fail.quiet rfl
  rw [if_neg hptr]
  by_cases hroom : noRoom ((s.mem (p + ipoptOFFSET)).toNat - 1) optlen = true
  · rw [if_pos hroom]
    exact hlook.quiet rfl
  rw [if_neg hroom]
  split
  · exact hlook.fail.quiet rfl
  · rename_i ia hroute
    rw [ipoptMINOFF, Nat.not_lt] at hptr
    have hfour : 4 ≤ optlen := by
      by_contra hsmall
      have hnone := hok (hlen.trans (by omega)) hptr
      exact absurd (hroute.symm.trans hnone) (by simp)
    rw [noRoom_iff hfour (by omega) (by omega)] at hroom
    have hfits : (s.mem (p + ipoptOFFSET)).toNat + 0 + ([] : List Byte).length + 3 ≤ optlen := by
      rw [List.length_nil]
      omega
    exact .note hsmall hp he hptr hptr hfits hlook rfl (filled_nil rfl) ia

theorem recorded_saveRte : (saveRte s p a).recorded = s.recorded := by
  rw [saveRte]
  dsimp only
  split_ifs <;> rfl

/-- The address of the interface stands where the next hop stood. -/
theorem right_ipoptSr (hsmall : e ≤ 60) (hp : sizeofIp ≤ p) (hlen : (s.mem (p + ipoptOLEN)).toNat = optlen)
    (hthree : 3 ≤ optlen) (he : p + optlen ≤ e) (hok : SrOk env e p s strict) :
    OptionRight e p s (ipoptSr env strict p optlen s).1 (ipoptSr env strict p optlen s).2 := by
  have hltptr := (s.mem (p + ipoptOFFSET)).isLt
  have hlook : Inside e p s (s.look (p + ipoptOFFSET) 1) :=
    (Inside.refl e p s).look (hp.trans (Nat.le_add_right p 2)) (by rw [ipoptOFFSET]; omega)
  rw [ipoptSr]
  dsimp only
  by_cases hptr : (s.mem (p + ipoptOFFSET)).toNat < ipoptMINOFF
  · rw [if_pos hptr]
    exact hlook.fail.quiet rfl
  rw [if_neg hptr]
  split
  · split_ifs
    · exact hlook.fail.quiet rfl
    · exact hlook.quiet rfl
  rename_i hours
  by_cases hroom : noRoom ((s.mem (p + ipoptOFFSET)).toNat - 1) optlen = true
  · rw [if_pos hroom]
    exact (hlook.saveRte hp (by omega) (hlen.symm ▸ he)).quiet recorded_saveRte
  rw [if_neg hroom]
  rw [ipoptMINOFF, Nat.not_lt] at hptr
  have hours : env.ifaIfwithaddr s.ipDst ≠ none := by
    intro hnone
    exact absurd (hours.symm.trans hnone) (by simp)
  have hread : Inside e p s ((s.look (p + ipoptOFFSET) 1).look (p + ((s.mem (p + ipoptOFFSET)).toNat - 1)) 4) := by
    refine hlook.look (hp.trans (Nat.le_add_right _ _)) ?_
    rcases Nat.lt_or_ge 3 optlen with hfour | hle
    · rw [noRoom_iff hfour (by omega) (by omega)] at hroom
      omega
    · have := (hok (hlen.trans (by omega)) hptr hours).1
      omega
  split
  · exact hread.fail.quiet rfl
  · rename_i ia hnext
    have hfour : 4 ≤ optlen := by
      by_contra hle
      have hnone := (hok (hlen.trans (by omega)) hptr hours).2
      exact absurd (hnext.symm.trans hnone) (by simp)
    rw [noRoom_iff hfour (by omega) (by omega)] at hroom
    have hfits : (s.mem (p + ipoptOFFSET)).toNat + 0 + ([] : List Byte).length + 3 ≤ optlen := by
      rw [List.length_nil]
      omega
    refine .setForward (.note hsmall hp he hptr hptr hfits hread.setIpDst rfl (filled_nil ?_) ia)
    exact congrArg BitVec.toNat (mem_setIpDst _ _ (hp.trans (Nat.le_add_right p 2)))

theorem right_ipoptTsTime (hsmall : e ≤ 60) (hp : sizeofIp ≤ p) (he : p + optlen ≤ e) (hptr : 5 ≤ ptr)
    (hfits : ptr + skip + data.length + 3 ≤ optlen) (h : Inside e p s s') (hrec : s'.recorded = s.recorded)
    (hfilled : Recorded.Filled ⟨p, optlen, 5, ptr, skip, data⟩ s'.mem) :
    OptionRight e p s (ipoptTsTime env p optlen ptr skip data s').1 (some optlen) := by
  have hoff : ipoptOFFSET = 2 := rfl
  have hnow : p + (s'.mem (p + ipoptOFFSET)).toNat - 1 = p + (ptr - 1) + skip + data.length := by
    have := hfilled.2
    dsimp only at this
    omega
  rw [ipoptTsTime]
  dsimp only
  rw [hnow]
  exact .note hsmall hp he (by omega) hptr hfits
    (h.look (hp.trans (Nat.le_add_right p 2)) (by omega)) hrec hfilled env.iptime

/-- The time stands at the pointer, behind an address of the interface or the one that was there. -/
theorem right_ipoptTs (hsmall : e ≤ 60) (hp : sizeofIp ≤ p) (hlen : (s.mem (p + ipoptOLEN)).toNat = optlen)
    (he : p + optlen ≤ e) (hok : TsOk env dst p s) :
    OptionRight e p s (ipoptTs env dst p optlen s).1 (ipoptTs env dst p optlen s).2 := by
  have hoff : ipoptOFFSET = 2 := rfl
  have hltptr := (s.mem (p + ipoptOFFSET)).isLt
  rw [ipoptTs]
  dsimp only
  by_cases hfive : optlen < 5
  · rw [if_pos hfive]
    exact (Inside.refl e p s).fail.quiet rfl
  rw [if_neg hfive]
  have hlook : Inside e p s ((s.look (p + ipoptOFFSET) 1).look (p + 3) 1) :=
    ((Inside.refl e p s).look (hp.trans (Nat.le_add_right p 2)) (by omega)).look
      (hp.trans (Nat.le_add_right p 3)) (by omega)
  by_cases hroom : noRoom (s.mem (p + ipoptOFFSET)).toNat optlen = true
  · rw [if_pos hroom]
    have hone : p + 3 + [s.mem (p + 3) + 0x10].length ≤ e := by
      rw [List.length_singleton]
      omega
    have hoflw := hlook.store hp (Nat.le_add_right p 3) hone
    split_ifs
    · exact hoflw.fail.quiet rfl
    · exact hoflw.quiet rfl
  rw [if_neg hroom]
  rw [noRoom_iff (by omega) (by omega) (by omega), Nat.not_lt] at hroom
  have hok := hok (hlen.symm ▸ Nat.not_lt.mp hfive)
  rw [hlen] at hok
  have hstart : Recorded.Filled ⟨p, optlen, 5, (s.mem (p + ipoptOFFSET)).toNat, 0, []⟩
      ((s.look (p + ipoptOFFSET) 1).look (p + 3) 1).mem := filled_nil rfl
  split_ifs with hflg hflg hfits hflg hfits
  · -- only the time
    have hptr : 5 ≤ (s.mem (p + ipoptOFFSET)).toNat := by
      by_contra hlt
      exact (hok (Nat.not_le.mp hlt) hroom).1 hflg
    exact right_ipoptTsTime hsmall hp he hptr (by rw [List.length_nil]; omega) hlook rfl hstart
  · exact hlook.fail.quiet rfl
  · -- the address of the interface, and the time
    split
    · exact hlook.quiet rfl
    rename_i ia hia
    have hptr : 5 ≤ (s.mem (p + ipoptOFFSET)).toNat := by
      by_contra hlt
      have hnone := (hok (Nat.not_le.mp hlt) hroom).2.1 hflg (by omega)
      exact absurd (hia.symm.trans hnone) (by simp)
    have hfilled := hstart.store (by omega) (length_wordBytes ia)
      (by rw [sizeofIp] at hp; rw [List.length_nil]; omega)
    rw [show p + (s.mem (p + ipoptOFFSET)).toNat - 1 = p + ((s.mem (p + ipoptOFFSET)).toNat - 1) by omega]
    refine right_ipoptTsTime hsmall hp he hptr (by rw [length_wordBytes]; omega) ?_ rfl hfilled
    exact (hlook.store hp (Nat.le_add_right _ _) (by rw [length_wordBytes]; omega)).advance hp (by omega)
  · exact hlook.fail.quiet rfl
  · -- the time, behind an address that is known here
    have hread : Inside e p s (((s.look (p + ipoptOFFSET) 1).look (p + 3) 1).look
        (p + (s.mem (p + ipoptOFFSET)).toNat - 1) 4) := by
      refine hlook.look ?_ (by omega)
      rcases Nat.lt_or_ge (s.mem (p + ipoptOFFSET)).toNat 5 with hlt | hge
      · have := ((hok hlt hroom).2.2 hflg (by omega)).1
        omega
      · omega
    split
    · exact hread.quiet rfl
    rename_i ia hia
    have hptr : 5 ≤ (s.mem (p + ipoptOFFSET)).toNat := by
      by_contra hlt
      have hnone := ((hok (Nat.not_le.mp hlt) hroom).2.2 hflg (by omega)).2
      exact absurd (hia.symm.trans hnone) (by simp)
    exact right_ipoptTsTime hsmall hp he hptr (by rw [List.length_nil]; omega) (hread.advance hp (by omega)) rfl
      (hstart.advance (by rw [sizeofIp] at hp; omega))
  · exact hlook.fail.quiet rfl

/-! ## What else happens -/

theorem wrong_of_access {x : ℕ × ℕ} (hx : x ∈ s.accesses) (h : ¬ InOptions e x) : Wrong e s := .inl ⟨x, hx, h⟩

theorem wrong_of_recorded (hr : r ∈ s.recorded) (h : ¬ r.InOption) : Wrong e s := .inr ⟨r, hr, h⟩

theorem RrOk.of_not_wrong (hlen : (s.mem (p + ipoptOLEN)).toNat = optlen)
    (h : ¬ Wrong e (ipoptRr env p optlen s).1) : RrOk env p s := by
  intro hthree hptr
  obtain rfl : optlen = 3 := hlen.symm.trans hthree
  by_contra hsome
  obtain ⟨ia, hia⟩ := Option.ne_none_iff_exists'.mp hsome
  refine h ?_
  rw [ipoptRr, if_neg (Nat.not_lt.mpr hptr), noRoom_three, if_neg (by simp),
    show (env.ifaIfwithaddr (s.look (p + ipoptOFFSET) 1).ipDst).or (env.ipRtaddr (s.look (p + ipoptOFFSET) 1).ipDst) =
      some ia from hia]
  refine wrong_of_recorded List.mem_cons_self fun hin => ?_
  have := hin.2
  dsimp only at this
  rw [length_wordBytes] at this
  omega

theorem SrOk.of_not_wrong (hlen : (s.mem (p + ipoptOLEN)).toNat = optlen)
    (h : ¬ Wrong e (ipoptSr env strict p optlen s).1) : SrOk env e p s strict := by
  intro hthree hptr hours
  obtain rfl : optlen = 3 := hlen.symm.trans hthree
  obtain ⟨ia, hia⟩ := Option.ne_none_iff_exists'.mp hours
  rw [ipoptSr] at h
  dsimp only at h
  rw [if_neg (Nat.not_lt.mpr hptr), show env.ifaIfwithaddr (s.look (p + ipoptOFFSET) 1).ipDst = some ia from hia] at h
  dsimp only at h
  rw [noRoom_three, if_neg (by simp)] at h
  constructor
  · by_contra hle
    have hwrong : Wrong e ((s.look (p + ipoptOFFSET) 1).look (p + ((s.mem (p + ipoptOFFSET)).toNat - 1)) 4) := by
      refine wrong_of_access List.mem_cons_self fun hin => hle ?_
      have := hin.2
      rw [ipoptMINOFF] at hptr
      dsimp only at this
      omega
    refine h (hwrong.mono ?_)
    split
    · exact (Grows.refl _).fail
    · exact (Grows.refl _).setIpDst.store.advance.note.setForward
  · by_contra hsome
    obtain ⟨ia', hia'⟩ := Option.ne_none_iff_exists'.mp hsome
    refine h ?_
    split
    · rename_i hnone
      exact absurd (hia'.symm.trans hnone) (by simp)
    · refine wrong_of_recorded List.mem_cons_self fun hin => ?_
      have := hin.2
      dsimp only at this
      rw [length_wordBytes] at this
      omega

theorem wrong_ipoptTsTime (hptr : ptr < 5) : Wrong e (ipoptTsTime env p optlen ptr skip data s).1 :=
  wrong_of_recorded List.mem_cons_self fun hin => Nat.not_le.mpr hptr hin.1

theorem TsOk.of_not_wrong (hlen : (s.mem (p + ipoptOLEN)).toNat = optlen) (he : p + optlen ≤ e)
    (h : ¬ Wrong e (ipoptTs env dst p optlen s).1) : TsOk env dst p s := by
  have hoff : ipoptOFFSET = 2 := rfl
  have hltlen := (s.mem (p + ipoptOLEN)).isLt
  subst hlen
  intro hfive hptr hroom
  rw [ipoptTs] at h
  dsimp only at h
  rw [if_neg (Nat.not_lt.mpr hfive), if_neg (by rw [noRoom_iff (by omega) (by omega) (by omega)]; omega)] at h
  have hzero : (s.mem (p + 3)).extractLsb' 0 4 ≠ 0 := by
    intro hflg
    rw [if_pos (show BitVec.extractLsb' 0 4 ((s.look (p + ipoptOFFSET) 1).mem (p + 3)) = 0 from hflg)] at h
    exact h (wrong_ipoptTsTime hptr)
  refine ⟨hzero, fun hflg hfits => ?_, fun hflg hfits => ⟨?_, ?_⟩⟩
  · by_contra hsome
    obtain ⟨ia, hia⟩ := Option.ne_none_iff_exists'.mp hsome
    rw [if_neg (show BitVec.extractLsb' 0 4 ((s.look (p + ipoptOFFSET) 1).mem (p + 3)) ≠ 0 from hzero),
      if_pos (show BitVec.extractLsb' 0 4 ((s.look (p + ipoptOFFSET) 1).mem (p + 3)) = 1 from hflg),
      if_neg (by omega), hia] at h
    exact h (wrong_ipoptTsTime hptr)
  all_goals
    have hone : (s.mem (p + 3)).extractLsb' 0 4 ≠ 1 := by
      rw [hflg]
      decide
    rw [if_neg (show BitVec.extractLsb' 0 4 ((s.look (p + ipoptOFFSET) 1).mem (p + 3)) ≠ 0 from hzero),
      if_neg (show BitVec.extractLsb' 0 4 ((s.look (p + ipoptOFFSET) 1).mem (p + 3)) ≠ 1 from hone),
      if_pos (show BitVec.extractLsb' 0 4 ((s.look (p + ipoptOFFSET) 1).mem (p + 3)) = 3 from hflg),
      if_neg (by omega)] at h
  · by_contra hle
    have hwrong : Wrong e (((s.look (p + ipoptOFFSET) 1).look (p + 3) 1).look
        (p + (s.mem (p + ipoptOFFSET)).toNat - 1) 4) := by
      refine wrong_of_access List.mem_cons_self fun hin => hle ?_
      have := hin.1
      rw [sizeofIp] at this ⊢
      dsimp only at this
      omega
    refine h (hwrong.mono ?_)
    split
    · exact .refl _
    · exact (Grows.refl _).advance.ipoptTsTime
  · by_contra hsome
    obtain ⟨ia, hia⟩ := Option.ne_none_iff_exists'.mp hsome
    rw [show env.ifaIfwithaddr (IpOptState.addr ((s.look (p + ipoptOFFSET) 1).look (p + 3) 1)
      (p + (s.mem (p + ipoptOFFSET)).toNat - 1)) = some ia from hia] at h
    exact h (wrong_ipoptTsTime hptr)

/-! ## One option -/

theorem CompleteOption.not_short (h : CompleteOption e p s) :
    ¬ e - p < ipoptOLEN + 1 ∧
      ¬ ((s.mem (p + ipoptOLEN)).toNat ≤ ipoptOLEN + 1 ∨ e - p < (s.mem (p + ipoptOLEN)).toNat) := by
  obtain ⟨htwo, hthree, hle⟩ := h
  have hone : ipoptOLEN = 1 := rfl
  omega

/-- What the loop does with an option that is complete. -/
theorem ipDoOption_complete (h : CompleteOption e p s) (heol : s.mem p ≠ ipoptEOL) (hnop : s.mem p ≠ ipoptNOP) :
    let optlen := (s.mem (p + ipoptOLEN)).toNat
    let t := (s.look p 1).look (p + ipoptOLEN) 1
    ipDoOption env dst e p s =
      if s.mem p = ipoptRR then ipoptRr env p optlen t
      else if s.mem p = ipoptLSRR then ipoptSr env false p optlen t
      else if s.mem p = ipoptSSRR then ipoptSr env true p optlen t
      else if s.mem p = ipoptTS then ipoptTs env dst p optlen t
      else (t, some optlen) := by
  rw [ipDoOption]
  dsimp only
  rw [if_neg heol, if_neg hnop, if_neg h.not_short.1]
  exact if_neg h.not_short.2

theorem IpOptionOk.of_not_wrong (hcomplete : CompleteOption e p s)
    (h : ¬ Wrong e (ipDoOption env dst e p s).1) : IpOptionOk env dst e p s where
  rr := by
    intro hop
    rw [ipDoOption_complete hcomplete (by rw [hop]; decide) (by rw [hop]; decide), if_pos hop] at h
    exact RrOk.of_not_wrong (s := (s.look p 1).look (p + ipoptOLEN) 1) rfl h
  lsrr := by
    intro hop
    rw [ipDoOption_complete hcomplete (by rw [hop]; decide) (by rw [hop]; decide),
      if_neg (by rw [hop]; decide), if_pos hop] at h
    exact SrOk.of_not_wrong (s := (s.look p 1).look (p + ipoptOLEN) 1) rfl h
  ssrr := by
    intro hop
    rw [ipDoOption_complete hcomplete (by rw [hop]; decide) (by rw [hop]; decide),
      if_neg (by rw [hop]; decide), if_neg (by rw [hop]; decide), if_pos hop] at h
    exact SrOk.of_not_wrong (s := (s.look p 1).look (p + ipoptOLEN) 1) rfl h
  ts := by
    intro hop
    rw [ipDoOption_complete hcomplete (by rw [hop]; decide) (by rw [hop]; decide),
      if_neg (by rw [hop]; decide), if_neg (by rw [hop]; decide), if_neg (by rw [hop]; decide), if_pos hop] at h
    exact TsOk.of_not_wrong (s := (s.look p 1).look (p + ipoptOLEN) 1) rfl hcomplete.2.2 h

theorem OptionRight.of_inside (h : OptionRight e p s' s'' next) (hin : Inside e p s s')
    (hrec : s'.recorded = s.recorded) : OptionRight e p s s'' next where
  inside := by
    refine ⟨fun a ha hlt => (h.inside.mem a ha hlt).trans (hin.mem a ha hlt), fun x hx => ?_⟩
    rcases h.inside.accesses x hx with hx | hx
    · exact hin.accesses x hx
    · exact .inr hx
  recorded := hrec ▸ h.recorded

/-- An option is recorded as it should be if it is right. -/
theorem right_ipDoOption (hsmall : e ≤ 60) (hp : sizeofIp ≤ p) (hlt : p < e)
    (hok : CompleteOption e p s → IpOptionOk env dst e p s) :
    OptionRight e p s (ipDoOption env dst e p s).1 (ipDoOption env dst e p s).2 := by
  have hone : ipoptOLEN = 1 := rfl
  have hlook : Inside e p s (s.look p 1) := (Inside.refl e p s).look hp hlt
  by_cases heol : s.mem p = ipoptEOL
  · rw [ipDoOption]
    dsimp only
    rw [if_pos heol]
    exact hlook.quiet rfl
  by_cases hnop : s.mem p = ipoptNOP
  · rw [ipDoOption]
    dsimp only
    rw [if_neg heol, if_pos hnop]
    exact hlook.quiet rfl
  by_cases hshort : e - p < ipoptOLEN + 1
  · rw [ipDoOption]
    dsimp only
    rw [if_neg heol, if_neg hnop, if_pos hshort]
    exact hlook.fail.quiet rfl
  let t := (s.look p 1).look (p + ipoptOLEN) 1
  have hlook' : Inside e p s t := hlook.look (hp.trans (Nat.le_add_right p ipoptOLEN)) (by omega)
  by_cases hbad : (s.mem (p + ipoptOLEN)).toNat ≤ ipoptOLEN + 1 ∨ e - p < (s.mem (p + ipoptOLEN)).toNat
  · rw [ipDoOption]
    dsimp only
    rw [if_neg heol, if_neg hnop, if_neg hshort,
      if_pos (show ((s.look p 1).mem (p + ipoptOLEN)).toNat ≤ ipoptOLEN + 1 ∨
        e - p < ((s.look p 1).mem (p + ipoptOLEN)).toNat from hbad)]
    exact hlook'.fail.quiet rfl
  have hcomplete : CompleteOption e p s := ⟨by omega, by omega, by omega⟩
  obtain ⟨hrr, hlsrr, hssrr, hts⟩ := hok hcomplete
  rw [ipDoOption_complete hcomplete heol hnop]
  split_ifs with hop hop hop hop
  · exact (right_ipoptRr (s := t) hsmall hp rfl hcomplete.2.1 hcomplete.2.2 (hrr hop)).of_inside hlook' rfl
  · exact (right_ipoptSr (s := t) hsmall hp rfl hcomplete.2.1 hcomplete.2.2 (hlsrr hop)).of_inside hlook' rfl
  · exact (right_ipoptSr (s := t) hsmall hp rfl hcomplete.2.1 hcomplete.2.2 (hssrr hop)).of_inside hlook' rfl
  · exact (right_ipoptTs (s := t) hsmall hp rfl hcomplete.2.2 (hts hop)).of_inside hlook' rfl
  · exact hlook'.quiet rfl

theorem ipoptRr_next {len : ℕ} (h : (ipoptRr env p optlen s).2 = some len) : len = optlen := by
  rw [ipoptRr] at h
  split_ifs at h
  · cases h
  · exact (Option.some.inj h).symm
  · split at h
    · cases h
    · exact (Option.some.inj h).symm

theorem ipoptSr_next {len : ℕ} (h : (ipoptSr env strict p optlen s).2 = some len) : len = optlen := by
  rw [ipoptSr] at h
  dsimp only at h
  by_cases hptr : (s.mem (p + ipoptOFFSET)).toNat < ipoptMINOFF
  · rw [if_pos hptr] at h
    cases h
  rw [if_neg hptr] at h
  split at h
  · split_ifs at h
    · cases h
    · exact (Option.some.inj h).symm
  by_cases hroom : noRoom ((s.mem (p + ipoptOFFSET)).toNat - 1) optlen = true
  · rw [if_pos hroom] at h
    exact (Option.some.inj h).symm
  rw [if_neg hroom] at h
  split at h
  · cases h
  · exact (Option.some.inj h).symm

theorem ipoptTs_next {len : ℕ} (h : (ipoptTs env dst p optlen s).2 = some len) : len = optlen := by
  rw [ipoptTs] at h
  dsimp only at h
  split_ifs at h
  · cases h
  · cases h
  · exact (Option.some.inj h).symm
  · exact (Option.some.inj h).symm
  · cases h
  · split at h
    · exact (Option.some.inj h).symm
    · exact (Option.some.inj h).symm
  · cases h
  · split at h
    · exact (Option.some.inj h).symm
    · exact (Option.some.inj h).symm
  · cases h

/-- The loop goes on behind an option. -/
theorem ipDoOption_next {len : ℕ} (h : (ipDoOption env dst e p s).2 = some len) : 0 < len := by
  rw [ipDoOption] at h
  dsimp only at h
  split_ifs at h with _ _ _ hlen
  · exact Option.some.inj h ▸ Nat.one_pos
  · cases h
  · cases h
  all_goals
    have hpos : 0 < ((s.look p 1).mem (p + ipoptOLEN)).toNat := Nat.zero_lt_of_lt (not_le.mp (not_or.mp hlen).1)
  · exact ipoptRr_next h ▸ hpos
  · exact ipoptSr_next h ▸ hpos
  · exact ipoptSr_next h ▸ hpos
  · exact ipoptTs_next h ▸ hpos
  · exact Option.some.inj h ▸ hpos

/-- The loop comes to an end. -/
theorem exists_ipDoOptions (env : IpEnv) (e : ℕ) (s : IpOptState) : ∃ r, ipDoOptions env e (e + 1) s = some r := by
  refine exists_walk (fun p s s' len _ hact => ?_) (by omega)
  exact ipDoOption_next (congrArg Prod.snd hact)

/-! ## All options -/

/-- What was recorded stays where it is when nothing of the option changes. -/
theorem Recorded.Filled.congr {mem mem' : ℕ → Byte} (hlen : 3 ≤ r.optlen) (hin : r.InOption) (h : r.Filled mem)
    (heq : ∀ a, r.opt ≤ a → a < r.opt + r.optlen → mem' a = mem a) : r.Filled mem' := by
  obtain ⟨-, hfits⟩ := hin
  have hoff : ipoptOFFSET = 2 := rfl
  refine ⟨fun i hi => ?_, ?_⟩
  · rw [heq _ (by omega) (by omega)]
    exact h.1 i hi
  · rw [heq _ (by omega) (by omega)]
    exact h.2

/-- What the loop has done when it comes to `p`. -/
structure DoneTo (e p : ℕ) (s : IpOptState) : Prop where
  accesses : ∀ x ∈ s.accesses, InOptions e x
  recorded : ∀ x ∈ s.recorded, sizeofIp ≤ x.opt ∧ x.opt + x.optlen ≤ p ∧ 3 ≤ x.optlen ∧ x.InOption ∧ x.Filled s.mem

theorem DoneTo.option (hp : sizeofIp ≤ p) (h : DoneTo e p s) (hright : OptionRight e p s s' next) :
    (∀ x ∈ s'.accesses, InOptions e x) ∧ ∀ x ∈ s'.recorded, sizeofIp ≤ x.opt ∧
      (x.opt + x.optlen ≤ p ∨ ∃ len, next = some len ∧ x.opt + x.optlen = p + len) ∧
        3 ≤ x.optlen ∧ x.InOption ∧ x.Filled s'.mem := by
  have hold (x : Recorded) (hx : x ∈ s.recorded) : sizeofIp ≤ x.opt ∧ x.opt + x.optlen ≤ p ∧ 3 ≤ x.optlen ∧
      x.InOption ∧ x.Filled s'.mem := by
    obtain ⟨hge, hle, hlen, hin, hfilled⟩ := h.recorded x hx
    exact ⟨hge, hle, hlen, hin, hfilled.congr hlen hin fun a ha hlt =>
      hright.inside.mem a (hge.trans ha) (Nat.lt_of_lt_of_le hlt hle)⟩
  refine ⟨fun x hx => (hright.inside.accesses x hx).elim (h.accesses x) id, fun x hx => ?_⟩
  rcases hright.recorded with hrec | ⟨r, hrec, hopt, hnext, hlen, hin, hfilled⟩
  · obtain ⟨hge, hle, hrest⟩ := hold x (hrec ▸ hx)
    exact ⟨hge, .inl hle, hrest⟩
  · rcases List.mem_cons.mp (hrec ▸ hx) with rfl | hx
    · exact ⟨hopt.symm ▸ hp, .inr ⟨_, hnext, by rw [hopt]⟩, hlen, hin, hfilled⟩
    · obtain ⟨hge, hle, hrest⟩ := hold x hx
      exact ⟨hge, .inl hle, hrest⟩

/-- What the loop has done in the end. -/
theorem walk_ipDoOption {fuel : ℕ} {t : IpOptState} (hsmall : e ≤ 60)
    (hok : ∀ p s, WalkReaches (ipDoOption env dst e) e sizeofIp t p s → CompleteOption e p s →
      IpOptionOk env dst e p s)
    (ht : DoneTo e sizeofIp t) (h : walk (ipDoOption env dst e) e fuel sizeofIp t = some s) :
    (∀ x ∈ s.accesses, InOptions e x) ∧ ∀ x ∈ s.recorded, x.InOption ∧ x.Filled s.mem := by
  let J (s : IpOptState) := (∀ x ∈ s.accesses, InOptions e x) ∧ ∀ x ∈ s.recorded, x.InOption ∧ x.Filled s.mem
  let I (p : ℕ) (s : IpOptState) := DoneTo e p s ∧ WalkReaches (ipDoOption env dst e) e sizeofIp t p s
  have hstep (p : ℕ) (s : IpOptState) (hlt : p < e) (hs : I p s) :=
    hs.1.option hs.2.le (right_ipDoOption hsmall hs.2.le hlt (hok p s hs.2))
  refine walk_invariant (I := I) (J := J) (fun p s _ hs => ?_) (fun p s s' hlt hs hact => ?_)
    (fun p s s' len hlt hs hact => ?_) ⟨ht, .start⟩ h
  · exact ⟨hs.1.accesses, fun x hx => (hs.1.recorded x hx).2.2.2⟩
  · obtain ⟨haccesses, hrecorded⟩ := hstep p s hlt hs
    rw [hact] at haccesses hrecorded
    exact ⟨haccesses, fun x hx => (hrecorded x hx).2.2.2⟩
  · obtain ⟨haccesses, hrecorded⟩ := hstep p s hlt hs
    rw [hact] at haccesses hrecorded
    refine ⟨⟨haccesses, fun x hx => ?_⟩, hs.2.next hlt hact⟩
    obtain ⟨hge, hend, hrest⟩ := hrecorded x hx
    refine ⟨hge, ?_, hrest⟩
    rcases hend with hle | ⟨_, hlen, hend⟩
    · exact hle.trans (Nat.le_add_right p len)
    · obtain rfl := Option.some.inj hlen
      exact hend.le

/-! ## Main results -/

/-- **Options are recorded as they should be** exactly when all complete options are right. -/
theorem doOptionsRight_iff (env : IpEnv) (hl : BitVec 4) (mem : ℕ → Byte) (srcrt : Option IpSrcrt) :
    DoOptionsRight env hl mem srcrt ↔ IpOptionsOk env hl mem srcrt := by
  constructor
  · rintro ⟨r, hr, haccesses, hrecorded⟩ p t ht hcomplete
    refine .of_not_wrong hcomplete fun hwrong => ?_
    have hlt : p < 4 * hl.toNat := lt_of_lt_of_le (by omega) hcomplete.1
    rcases ht.last hlt hwrong (fun p s hs => hs.mono (Grows.refl s).ipDoOption) hr with ⟨x, hx, hout⟩ | ⟨x, hx, hout⟩
    · exact hout (haccesses x hx)
    · exact hout (hrecorded x hx).1
  · intro hok
    have hhl := hl.isLt
    obtain ⟨r, hr⟩ := exists_ipDoOptions env (4 * hl.toNat) (.start mem srcrt)
    refine ⟨r, hr, walk_ipDoOption (by omega) hok ⟨?_, ?_⟩ hr⟩
    · exact fun x hx => absurd hx List.not_mem_nil
    · exact fun x hx => absurd hx List.not_mem_nil

end

/-- One interface, with the address 10.0.0.1. -/
def oneIf : IpEnv where
  ifaIfwithaddr := fun a => if a = 0x0100000a then some a else none
  ifaIfwithdstaddr := fun _ => none
  ifaIfwithnet := fun a => if a.extractLsb' 0 8 = 0x0a then some 0x0100000a else none
  ifaofIfpforaddr := fun _ => some 0x0100000a
  ipRtaddr := fun a => if a.extractLsb' 0 8 = 0x0a then some 0x0100000a else none
  iptime := 0

/-- A packet from 10.0.0.2 to 10.0.0.1 with `IPOPT_RR` of three bytes, whose pointer is 255, and `IPOPT_EOL`. -/
def shortRr (p : ℕ) : Byte :=
  [0x46, 0, 24, 0, 0, 0, 0, 0, 64, 1, 0, 0, 10, 0, 0, 2, 10, 0, 0, 1, 7, 3, 255, 0].getD p 0

theorem doOptions_can_write_behind : ¬ ∀ env hl mem srcrt, DoOptionsRight env hl mem srcrt := by
  intro hall
  obtain ⟨r, hr, haccesses, _⟩ := hall oneIf 6 shortRr none
  have hlog : (ipDoOptions oneIf (4 * (6 : BitVec 4).toNat) (4 * (6 : BitVec 4).toNat + 1) (.start shortRr none)).map
      IpOptState.accesses = some [(23, 1), (22, 1), (274, 4), (22, 1), (21, 1), (20, 1)] := by
    decide +kernel
  rw [hr, Option.map_some] at hlog
  exact absurd (haccesses (274, 4) (Option.some.inj hlog ▸ by decide)).2 (by decide)

end Shaunos.Net
