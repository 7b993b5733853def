import Shaunos.Net.Errno
import Shaunos.Net.IpFrag
import Shaunos.Net.PcbLookup

/-!
# Binding a protocol control block

Reference: `Kernel/netinet/in_pcb.c` (`in_pcbbind`), `Kernel/net/if.c` (`ifa_ifwithaddr`),
`Include/kernel/sys/netinet/in.h`.

A port that the caller does not choose is searched for with a counter that stands in the head of the table, in host
byte order. The counter is put back nowhere, it runs through all 16 bits, and the loop takes a number while it is
below `IPPORT_RESERVED` or above `IPPORT_USERRESERVED`.

* `bindLoop_eq_some`, `bindLoop_fuel` — which port the search ends with, and when it goes on for ever;
* `bindRight_iff` — when `in_pcbbind` does what its callers expect.
-/

namespace Shaunos.Net

/-! ## The code -/

def sO_ACCEPTCONN : BitVec 16 := 0x0002
def sO_REUSEADDR : BitVec 16 := 0x0004
def sO_REUSEPORT : BitVec 16 := 0x0200

def aF_INET : Byte := 2

def iPPORT_RESERVED : BitVec 16 := 1024
def iPPORT_USERRESERVED : BitVec 16 := 5000

/-- `struct sockaddr_in`, without its padding. -/
structure SockaddrIn where
  sinLen : Byte
  sinFamily : Byte
  sinPort : BitVec 16
  sinAddr : InAddr
deriving DecidableEq

/-- The mbuf with a name: `m_len`, and what `mtod` leads to. -/
structure Nam where
  mLen : ℤ
  sin : SockaddrIn
deriving DecidableEq

/-- What the interfaces say. -/
structure Interfaces where
  /-- `in_ifaddr` is not null. -/
  inIfaddr : Bool
  /-- `ifa_ifwithaddr` finds an interface. -/
  ifaIfwithaddr : SockaddrIn → Bool

/-- `__swab32`, which `ntohl` is. -/
def swab32 (x : BitVec 32) : BitVec 32 :=
  x.extractLsb' 0 8 ++ x.extractLsb' 8 8 ++ x.extractLsb' 16 8 ++ x.extractLsb' 24 8

/-- `IN_MULTICAST`, of an address in host byte order. -/
def inMulticast (a : BitVec 32) : Bool := a &&& 0xf0000000 == 0xe0000000

/-- The flag for `in_pcblookup`. -/
def PcbSocket.wild (so : PcbSocket) : BitVec 32 :=
  if so.soOptions &&& (sO_REUSEADDR ||| sO_REUSEPORT) = 0 ∧
      (so.prConnrequired = false ∨ so.soOptions &&& sO_ACCEPTCONN = 0) then
    iNPLOOKUP_WILDCARD
  else 0

/-- The block `if (nam)`: an error, or `lport` and `reuseport`. -/
def bindName (ifs : Interfaces) (so : PcbSocket) : Option Nam → Except ℤ (BitVec 16 × BitVec 16)
  | none => .ok (0, so.soOptions &&& sO_REUSEPORT)
  | some nam =>
      if nam.mLen ≠ 16 then .error eINVAL
      else if nam.sin.sinFamily ≠ aF_INET then .error eAFNOSUPPORT
      else
        let lport := nam.sin.sinPort
        if inMulticast (swab32 nam.sin.sinAddr) then
          if so.soOptions &&& sO_REUSEADDR ≠ 0 then .ok (lport, sO_REUSEADDR ||| sO_REUSEPORT)
          else .ok (lport, so.soOptions &&& sO_REUSEPORT)
        else if nam.sin.sinAddr ≠ iNADDR_ANY ∧ ifs.ifaIfwithaddr { nam.sin with sinPort := 0 } = false then
          .error eADDRNOTAVAIL
        else .ok (lport, so.soOptions &&& sO_REUSEPORT)

/-- `sin->sin_addr`: without a name `sin` is not set, and `stray` is the word that it leads to, if it can be read. -/
def bindAddr (stray : Option InAddr) : Option Nam → Option InAddr
  | none => stray
  | some nam => some nam.sin.sinAddr

/-- The test of the loop on `head->inp_lport`, which is `n` once it is counted up. -/
def Searched (n : BitVec 16) : Prop := n - 1 < iPPORT_RESERVED ∨ iPPORT_USERRESERVED < n

instance (n : BitVec 16) : Decidable (Searched n) := inferInstanceAs (Decidable (_ ∨ _))

namespace PcbTable

variable {ι : Type*} (t : PcbTable ι)

/-- The lookup that says that a port is taken. -/
def portLookup (laddr : InAddr) (wild : BitVec 32) (lport : BitVec 16) : Option ι :=
  t.inPcblookup iNADDR_ANY 0 laddr (lport.setWidth 32) wild

/-- The loop, at most `fuel` times: the counter and the port it ends with. -/
def bindLoop (laddr : InAddr) (wild : BitVec 32) : ℕ → BitVec 16 → BitVec 16 → Option (BitVec 16 × BitVec 16)
  | 0, _, _ => none
  | fuel + 1, count, lport =>
      let count := count + 1
      let lport := if Searched count then htons count else lport
      if (t.portLookup laddr wild lport).isSome then bindLoop laddr wild fuel count lport
      else some (count, lport)

variable [DecidableEq ι]

/-- A write to one block. -/
def modify (i : ι) (f : Inpcb → Inpcb) : PcbTable ι :=
  { t with inp := Function.update t.inp i (f (t.inp i)) }

def setLaddr (i : ι) (laddr : InAddr) : PcbTable ι := t.modify i fun p => { p with inpLaddr := laddr }

def setLport (i : ι) (lport : BitVec 16) : PcbTable ι := t.modify i fun p => { p with inpLport := lport }

/-- `in_pcbbind`; `none` where it does not return. -/
def inPcbbind (ifs : Interfaces) (stray : Option InAddr) (i : ι) (nam : Option Nam) : Option (ℤ × PcbTable ι) :=
  let inp := t.inp i
  let wild := inp.inpSocket.wild
  if ifs.inIfaddr = false then some (-eADDRNOTAVAIL, t)
  else if inp.inpLport ≠ 0 ∨ inp.inpLaddr ≠ iNADDR_ANY then some (-eINVAL, t)
  else
    match bindName ifs inp.inpSocket nam with
    | .error e => some (-e, t)
    | .ok (lport, reuseport) =>
        (bindAddr stray nam).bind fun laddr =>
          if lport ≠ 0 then
            match t.portLookup laddr wild lport with
            | some j =>
                if reuseport &&& (t.inp j).inpSocket.soOptions = 0 then some (-eADDRINUSE, t)
                else some (0, (t.setLaddr i laddr).setLport i lport)
            | none => some (0, (t.setLaddr i laddr).setLport i lport)
          else
            let t := t.setLaddr i laddr
            (t.bindLoop laddr wild (2 ^ 16) t.headLport lport).map fun r =>
              (0, { t with headLport := r.1 }.setLport i r.2)

end PcbTable

/-! ## What should happen -/

/-- The address that is asked for. -/
def wantedAddr (nam : Option Nam) : InAddr := nam.elim iNADDR_ANY fun nam => nam.sin.sinAddr

/-- The port that is asked for, 0 for any. -/
def wantedPort (nam : Option Nam) : BitVec 16 := nam.elim 0 fun nam => nam.sin.sinPort

/-- The options of two sockets let both have one port: they have `SO_REUSEPORT`, or one asks for a multicast address
with `SO_REUSEADDR` and the other has one of the two. -/
def MayShare (so : PcbSocket) (laddr : InAddr) (other : PcbSocket) : Prop :=
  (if inMulticast (swab32 laddr) ∧ so.soOptions &&& sO_REUSEADDR ≠ 0 then sO_REUSEADDR ||| sO_REUSEPORT
    else so.soOptions &&& sO_REUSEPORT) &&& other.soOptions ≠ 0

instance (so : PcbSocket) (laddr : InAddr) (other : PcbSocket) : Decidable (MayShare so laddr other) :=
  inferInstanceAs (Decidable (_ ≠ _))

/-- The numbers for ports that are not asked for. -/
def Ephemeral (n : BitVec 16) : Prop := iPPORT_RESERVED ≤ n ∧ n ≤ iPPORT_USERRESERVED

/-- The value of the counter in a round of the loop. -/
def countAt (count : BitVec 16) (round : ℕ) : BitVec 16 := count + 1 + BitVec.ofNat 16 round

section

variable {ι : Type*} (t : PcbTable ι) (ifs : Interfaces) (stray : Option InAddr) (i : ι) (nam : Option Nam)

namespace PcbTable

/-- A block has this port, as `in_pcblookup` sees it. -/
def PortUsed (laddr : InAddr) (wild : BitVec 32) (lport : BitVec 16) : Prop :=
  ∃ j ∈ t.chain, (t.inp j).Candidate iNADDR_ANY 0 laddr lport wild

/-- The block has neither port nor address, and the name is a good one. -/
def BindChecks : Prop :=
  ifs.inIfaddr = true ∧ (t.inp i).inpLport = 0 ∧ (t.inp i).inpLaddr = iNADDR_ANY ∧
    ∃ r, bindName ifs (t.inp i).inpSocket nam = .ok r

/-- The block `j` has the port that is asked for, and the options do not let them share it. -/
def Conflicts (j : ι) : Prop :=
  (t.inp j).Candidate iNADDR_ANY 0 (wantedAddr nam) (wantedPort nam) (t.inp i).inpSocket.wild ∧
    ¬ MayShare (t.inp i).inpSocket (wantedAddr nam) (t.inp j).inpSocket

/-- Some port is free, among those for ports that are not asked for. -/
def EphemeralFree : Prop :=
  ∃ n, Ephemeral n ∧ ¬ t.PortUsed (wantedAddr nam) (t.inp i).inpSocket.wild (htons n)

variable [DecidableEq ι]

/-- `in_pcbbind` finds a free port of the right range when there is one and the block gets it, with the address that is
asked for; with a port that is asked for it succeeds exactly when there is no conflict; and where it fails it leaves
the block as it was. -/
structure BindRight : Prop where
  search : t.BindChecks ifs i nam → wantedPort nam = 0 → t.EphemeralFree i nam →
    ∃ n u, Ephemeral n ∧ ¬ t.PortUsed (wantedAddr nam) (t.inp i).inpSocket.wild (htons n) ∧
      t.inPcbbind ifs stray i nam = some (0, u) ∧
      u.inp i = { t.inp i with inpLaddr := wantedAddr nam, inpLport := htons n }
  port : t.BindChecks ifs i nam → wantedPort nam ≠ 0 →
    ((∃ u, t.inPcbbind ifs stray i nam = some (0, u)) ↔ ∀ j ∈ t.chain, ¬ t.Conflicts i nam j)
  fails : ∀ e u, t.inPcbbind ifs stray i nam = some (e, u) → e ≠ 0 → u.inp i = t.inp i

/-- The condition for that. -/
structure BindOk : Prop where
  /-- The search has the right address and ends with 1024, the only number that the loop takes and that is in the
  range: it is free, and what the loop takes before it is not. -/
  search : t.BindChecks ifs i nam → wantedPort nam = 0 → t.EphemeralFree i nam →
    (nam = none → stray = some iNADDR_ANY) ∧
      (Searched (countAt t.headLport 0) ∨
        (t.setLaddr i (wantedAddr nam)).PortUsed (wantedAddr nam) (t.inp i).inpSocket.wild 0) ∧
      ¬ t.PortUsed (wantedAddr nam) (t.inp i).inpSocket.wild (htons iPPORT_RESERVED) ∧
      ∀ k < (iPPORT_RESERVED - countAt t.headLport 0).toNat, Searched (countAt t.headLport k) →
        t.PortUsed (wantedAddr nam) (t.inp i).inpSocket.wild (htons (countAt t.headLport k))
  /-- Where a block is in conflict, so is the one that is looked at. -/
  port : t.BindChecks ifs i nam → wantedPort nam ≠ 0 → (∃ j ∈ t.chain, t.Conflicts i nam j) →
    ∃ j, t.FirstBest iNADDR_ANY 0 (wantedAddr nam) (wantedPort nam) (t.inp i).inpSocket.wild j ∧ t.Conflicts i nam j

end PcbTable

end

/-! ## The search -/

theorem htons_htons (x : BitVec 16) : htons (htons x) = x := swap16_swap16 x

theorem htons_ne_zero {x : BitVec 16} (h : x ≠ 0) : htons x ≠ 0 := by
  intro hzero
  rw [← htons_htons x, hzero] at h
  exact h (by decide)

theorem Searched.ne_zero {n : BitVec 16} (h : Searched n) : n ≠ 0 := by
  rintro rfl
  exact absurd h (by decide)

/-- Of the numbers that the loop takes, only 1024 is in the range. -/
theorem Searched.ephemeral {n : BitVec 16} (h : Searched n) (he : Ephemeral n) : n = iPPORT_RESERVED := by
  rw [Searched, iPPORT_RESERVED, iPPORT_USERRESERVED] at h
  rw [Ephemeral, iPPORT_RESERVED, iPPORT_USERRESERVED] at he
  rw [iPPORT_RESERVED]
  bv_omega

theorem countAt_succ (count : BitVec 16) (k : ℕ) : countAt count (k + 1) = countAt (count + 1) k := by
  rw [countAt, countAt]
  bv_omega

theorem countAt_mod (count : BitVec 16) (k : ℕ) : countAt count (k % 2 ^ 16) = countAt count k := by
  rw [countAt, countAt]
  congr 1
  apply BitVec.eq_of_toNat_eq
  simp

namespace PcbTable

variable {ι : Type*} {t : PcbTable ι} {laddr : InAddr} {wild : BitVec 32}

theorem portLookup_isSome {lport : BitVec 16} :
    (t.portLookup laddr wild lport).isSome = true ↔ t.PortUsed laddr wild lport := by
  rw [← not_iff_not, Bool.not_eq_true, Option.isSome_eq_false_iff, Option.isNone_iff_eq_none, portLookup,
    inPcblookup_eq_none, PortUsed]
  simp

theorem portLookup_eq_some {lport : BitVec 16} {j : ι} :
    t.portLookup laddr wild lport = some j ↔ t.FirstBest iNADDR_ANY 0 laddr lport wild j := by
  rw [portLookup, inPcblookup_eq_some, BitVec.setWidth_setWidth_of_le lport (by decide), BitVec.setWidth_eq]
  rfl

/-- The loop ends with the first number that it takes and that is free. -/
def EndsAt (t : PcbTable ι) (laddr : InAddr) (wild : BitVec 32) (count : BitVec 16) (k : ℕ) : Prop :=
  Searched (countAt count k) ∧ ¬ t.PortUsed laddr wild (htons (countAt count k)) ∧
    ∀ m < k, Searched (countAt count m) → t.PortUsed laddr wild (htons (countAt count m))

theorem endsAt_zero {count : BitVec 16} :
    t.EndsAt laddr wild count 0 ↔
      Searched (countAt count 0) ∧ ¬ t.PortUsed laddr wild (htons (countAt count 0)) := by
  simp [EndsAt]

theorem endsAt_succ {count : BitVec 16} {k : ℕ} :
    t.EndsAt laddr wild count (k + 1) ↔
      (Searched (countAt count 0) → t.PortUsed laddr wild (htons (countAt count 0))) ∧
        t.EndsAt laddr wild (count + 1) k := by
  simp only [EndsAt, Nat.forall_lt_succ_left, countAt_succ]
  tauto

theorem bindLoop_eq_some {count lport : BitVec 16} (h : Searched (countAt count 0) ∨ t.PortUsed laddr wild lport)
    (fuel : ℕ) (r : BitVec 16 × BitVec 16) :
    t.bindLoop laddr wild fuel count lport = some r ↔
      ∃ k < fuel, t.EndsAt laddr wild count k ∧ r = (countAt count k, htons (countAt count k)) := by
  induction fuel generalizing count lport with
  | zero => simp [bindLoop]
  | succ fuel ih =>
      have hcount : countAt count 0 = count + 1 := by simp [countAt]
      rw [bindLoop, Nat.exists_lt_succ_left]
      simp only [endsAt_zero, endsAt_succ, countAt_succ]
      rw [hcount] at h ⊢
      by_cases hused : t.PortUsed laddr wild (if Searched (count + 1) then htons (count + 1) else lport)
      · rw [if_pos (portLookup_isSome.mpr hused), ih (.inr hused)]
        have hnot : Searched (count + 1) → t.PortUsed laddr wild (htons (count + 1)) := by
          intro hs
          rwa [if_pos hs] at hused
        have hfirst : ¬ (Searched (count + 1) ∧ ¬ t.PortUsed laddr wild (htons (count + 1))) :=
          fun hs => hs.2 (hnot hs.1)
        simp only [hfirst, false_and, false_or, eq_true hnot, true_and]
      · rw [if_neg fun hsome => hused (portLookup_isSome.mp hsome)]
        have hs : Searched (count + 1) := by
          by_contra hno
          rw [if_neg hno] at hused
          exact hused (h.resolve_left hno)
        rw [if_pos hs] at hused ⊢
        constructor
        · intro heq
          exact .inl ⟨⟨hs, hused⟩, (Option.some.inj heq).symm⟩
        · rintro (⟨-, heq⟩ | ⟨k, -, ⟨hno, -⟩, -⟩)
          · rw [heq]
          · exact absurd (hno hs) hused

/-- The loop also ends where it takes no number and finds no block with the port that it has, 0 at first. -/
theorem bindLoop_of_free {count lport : BitVec 16} (h : ¬ (Searched (countAt count 0) ∨ t.PortUsed laddr wild lport))
    (fuel : ℕ) : t.bindLoop laddr wild (fuel + 1) count lport = some (count + 1, lport) := by
  have hcount : countAt count 0 = count + 1 := by simp [countAt]
  push Not at h
  rw [hcount] at h
  rw [bindLoop]
  simp only [if_neg h.1]
  rw [if_neg fun hsome => h.2 (portLookup_isSome.mp hsome)]

/-- After 65536 rounds the counter is where it was. -/
theorem bindLoop_fuel {count lport : BitVec 16} (h : t.bindLoop laddr wild (2 ^ 16) count lport = none) (fuel : ℕ) :
    t.bindLoop laddr wild fuel count lport = none := by
  by_cases hbusy : Searched (countAt count 0) ∨ t.PortUsed laddr wild lport
  · rw [Option.eq_none_iff_forall_not_mem] at h ⊢
    intro r hr
    obtain ⟨k, -, hends, rfl⟩ := (bindLoop_eq_some hbusy fuel r).mp hr
    refine h _ ((bindLoop_eq_some hbusy _ _).mpr ⟨k % 2 ^ 16, Nat.mod_lt _ (by decide), ?_, rfl⟩)
    rw [EndsAt, countAt_mod]
    exact ⟨hends.1, hends.2.1, fun m hm => hends.2.2 m (hm.trans_le (Nat.mod_le k _))⟩
  · have hsome := bindLoop_of_free hbusy 65535
    exact absurd (h.symm.trans hsome) (by simp)

/-! ## Writes to a block -/

section

variable [DecidableEq ι] {i j : ι} {f : Inpcb → Inpcb} {a : InAddr} {p : BitVec 16}

@[simp] theorem modify_chain : (t.modify i f).chain = t.chain := rfl

@[simp] theorem modify_headLport : (t.modify i f).headLport = t.headLport := rfl

@[simp] theorem modify_inp_self : (t.modify i f).inp i = f (t.inp i) := Function.update_self i _ t.inp

theorem modify_inp_of_ne (h : j ≠ i) : (t.modify i f).inp j = t.inp j := Function.update_of_ne h _ t.inp

@[simp] theorem setLaddr_chain : (t.setLaddr i a).chain = t.chain := rfl

@[simp] theorem setLaddr_inp_self : (t.setLaddr i a).inp i = { t.inp i with inpLaddr := a } := modify_inp_self

@[simp] theorem setLport_chain : (t.setLport i p).chain = t.chain := rfl

@[simp] theorem setLport_inp_self : (t.setLport i p).inp i = { t.inp i with inpLport := p } := modify_inp_self

/-- A block that has no port is none of those that have one, whatever its address. -/
theorem portUsed_setLaddr (hport : (t.inp i).inpLport = 0) (hp : p ≠ 0) :
    (t.setLaddr i a).PortUsed laddr wild p ↔ t.PortUsed laddr wild p := by
  rw [PortUsed, PortUsed, setLaddr_chain]
  refine exists_congr fun j => and_congr_right fun _ => ?_
  by_cases hji : j = i
  · subst hji
    refine iff_of_false (fun h => ?_) fun h => ?_
    · have hl := h.1.lport
      rw [setLaddr_inp_self] at hl
      exact hp (hl.symm.trans hport)
    · exact hp (h.1.lport.symm.trans hport)
  · rw [setLaddr, modify_inp_of_ne hji]

theorem endsAt_setLaddr (hport : (t.inp i).inpLport = 0) (count : BitVec 16) (k : ℕ) :
    (t.setLaddr i a).EndsAt laddr wild count k ↔ t.EndsAt laddr wild count k := by
  have hused : ∀ m, Searched (countAt count m) →
      ((t.setLaddr i a).PortUsed laddr wild (htons (countAt count m)) ↔
        t.PortUsed laddr wild (htons (countAt count m))) :=
    fun m hs => portUsed_setLaddr hport (htons_ne_zero hs.ne_zero)
  rw [EndsAt, EndsAt]
  refine and_congr_right fun hs => and_congr (not_congr (hused k hs)) ?_
  exact forall₂_congr fun m _ => forall_congr' fun hs => hused m hs

end

end PcbTable

/-! ## The cases of `in_pcbbind` -/

theorem bindName_ok {ifs : Interfaces} {so : PcbSocket} {nam : Option Nam} {r : BitVec 16 × BitVec 16}
    (h : bindName ifs so nam = .ok r) :
    r.1 = wantedPort nam ∧
      ∀ other : PcbSocket, r.2 &&& other.soOptions ≠ 0 ↔ MayShare so (wantedAddr nam) other := by
  cases nam with
  | none =>
      obtain rfl := Except.ok.inj h
      refine ⟨rfl, fun other => ?_⟩
      rw [MayShare, if_neg]
      rintro ⟨hmulti, -⟩
      exact absurd hmulti (by decide)
  | some nam =>
      rw [bindName] at h
      split_ifs at h with hlen hfam hmulti hreuse haddr
      · obtain rfl := Except.ok.inj h
        refine ⟨rfl, fun other => ?_⟩
        rw [MayShare, if_pos ⟨hmulti, hreuse⟩]
      · obtain rfl := Except.ok.inj h
        refine ⟨rfl, fun other => ?_⟩
        rw [MayShare, if_neg fun hboth => hreuse hboth.2]
      · obtain rfl := Except.ok.inj h
        refine ⟨rfl, fun other => ?_⟩
        rw [MayShare, if_neg fun hboth => hmulti hboth.1]

theorem bindName_error {ifs : Interfaces} {so : PcbSocket} {nam : Option Nam} {e : ℤ}
    (h : bindName ifs so nam = .error e) : e ≠ 0 := by
  cases nam with
  | none => cases h
  | some nam =>
      rw [bindName] at h
      split_ifs at h <;> cases h <;> decide

namespace PcbTable

variable {ι : Type*} [DecidableEq ι] {t : PcbTable ι} {ifs : Interfaces} {stray : Option InAddr} {i : ι}
  {nam : Option Nam}

theorem inPcbbind_search (h : t.BindChecks ifs i nam) (hport : wantedPort nam = 0) :
    t.inPcbbind ifs stray i nam =
      (bindAddr stray nam).bind fun laddr =>
        ((t.setLaddr i laddr).bindLoop laddr (t.inp i).inpSocket.wild (2 ^ 16) t.headLport 0).map fun r =>
          (0, { t.setLaddr i laddr with headLport := r.1 }.setLport i r.2) := by
  obtain ⟨hif, hlport, hladdr, r, hname⟩ := h
  obtain ⟨hr, -⟩ := bindName_ok hname
  rw [inPcbbind]
  simp only [hif, Bool.true_eq_false, if_false, hlport, hladdr, ne_eq, not_true, or_self, hname, hr, hport]
  rfl

theorem bindAddr_of_wantedPort (hport : wantedPort nam ≠ 0) : bindAddr stray nam = some (wantedAddr nam) := by
  cases nam with
  | none => exact absurd rfl hport
  | some nam => rfl

/-- With a port that is asked for, the first of the best matches decides. -/
theorem inPcbbind_port (stray : Option InAddr) (h : t.BindChecks ifs i nam) (hport : wantedPort nam ≠ 0) :
    (∃ j, t.FirstBest iNADDR_ANY 0 (wantedAddr nam) (wantedPort nam) (t.inp i).inpSocket.wild j ∧
        t.Conflicts i nam j) ∧ t.inPcbbind ifs stray i nam = some (-eADDRINUSE, t) ∨
      (∀ j, t.FirstBest iNADDR_ANY 0 (wantedAddr nam) (wantedPort nam) (t.inp i).inpSocket.wild j →
        ¬ t.Conflicts i nam j) ∧
      t.inPcbbind ifs stray i nam =
        some (0, (t.setLaddr i (wantedAddr nam)).setLport i (wantedPort nam)) := by
  obtain ⟨hif, hlport, hladdr, r, hname⟩ := h
  obtain ⟨hr, hshare⟩ := bindName_ok hname
  rw [inPcbbind]
  simp only [hif, Bool.true_eq_false, if_false, hlport, hladdr, ne_eq, not_true, or_self, hname, hr,
    bindAddr_of_wantedPort hport, Option.bind_some, hport, not_false_eq_true, if_true]
  cases hl : t.portLookup (wantedAddr nam) (t.inp i).inpSocket.wild (wantedPort nam) with
  | none =>
      refine .inr ⟨fun j hj => ?_, rfl⟩
      rw [portLookup_eq_some.mpr hj] at hl
      cases hl
  | some j =>
      have hj := portLookup_eq_some.mp hl
      by_cases hfree : r.2 &&& (t.inp j).inpSocket.soOptions = 0
      · refine .inl ⟨⟨j, hj, hj.candidate, fun hmay => (hshare _).mpr hmay hfree⟩, ?_⟩
        simp only [if_pos hfree]
      · refine .inr ⟨fun k hk hconf => ?_, ?_⟩
        · obtain rfl := firstBest_unique hj hk
          exact hconf.2 ((hshare _).mp hfree)
        · simp only [if_neg hfree]

/-- Before the search, a failure changes nothing. -/
theorem inPcbbind_of_not_checks (stray : Option InAddr) (h : ¬ t.BindChecks ifs i nam) :
    ∃ e, e ≠ 0 ∧ t.inPcbbind ifs stray i nam = some (e, t) := by
  rw [inPcbbind]
  by_cases hif : ifs.inIfaddr = false
  · exact ⟨-eADDRNOTAVAIL, by decide, if_pos hif⟩
  by_cases hbound : (t.inp i).inpLport ≠ 0 ∨ (t.inp i).inpLaddr ≠ iNADDR_ANY
  · refine ⟨-eINVAL, by decide, ?_⟩
    simp only [if_neg hif, if_pos hbound]
  cases hname : bindName ifs (t.inp i).inpSocket nam with
  | error e =>
      refine ⟨-e, ?_, by simp only [if_neg hif, if_neg hbound]⟩
      exact neg_ne_zero.mpr (bindName_error hname)
  | ok r =>
      push Not at hbound
      exact absurd ⟨by simpa using hif, hbound.1, hbound.2, r, hname⟩ h

/-- A failure comes before the first write. -/
theorem inPcbbind_fails {e : ℤ} {u : PcbTable ι} (h : t.inPcbbind ifs stray i nam = some (e, u)) (he : e ≠ 0) :
    u = t := by
  by_cases hchecks : t.BindChecks ifs i nam
  · by_cases hport : wantedPort nam = 0
    · rw [inPcbbind_search hchecks hport] at h
      obtain ⟨laddr, -, hloop⟩ := Option.bind_eq_some_iff.mp h
      obtain ⟨r, -, hr⟩ := Option.map_eq_some_iff.mp hloop
      exact absurd (Prod.ext_iff.mp hr).1.symm he
    · rcases inPcbbind_port stray hchecks hport with ⟨-, heq⟩ | ⟨-, heq⟩
      · exact (Prod.ext_iff.mp (Option.some.inj (heq.symm.trans h))).2.symm
      · exact absurd (Prod.ext_iff.mp (Option.some.inj (heq.symm.trans h))).1.symm he
  · obtain ⟨e', -, heq⟩ := inPcbbind_of_not_checks stray hchecks
    exact (Prod.ext_iff.mp (Option.some.inj (heq.symm.trans h))).2.symm

/-- What a call leaves behind: the table as it was, or the block with an address and a port, which is free if it was
searched for. -/
theorem inPcbbind_cases {c : ℤ} {u : PcbTable ι} (h : t.inPcbbind ifs stray i nam = some (c, u)) :
    c ≠ 0 ∧ u = t ∨ c = 0 ∧ ∃ laddr lport, bindAddr stray nam = some laddr ∧ (t.inp i).inpLport = 0 ∧
      (t.inp i).inpLaddr = iNADDR_ANY ∧ u.chain = t.chain ∧
      u.inp = Function.update t.inp i { t.inp i with inpLaddr := laddr, inpLport := lport } ∧
      (wantedPort nam = 0 → (t.setLaddr i laddr).PortUsed laddr (t.inp i).inpSocket.wild 0 →
        lport ≠ 0 ∧ ¬ t.PortUsed laddr (t.inp i).inpSocket.wild lport) := by
  by_cases hchecks : t.BindChecks ifs i nam
  swap
  · obtain ⟨e, he, heq⟩ := inPcbbind_of_not_checks stray hchecks
    obtain ⟨rfl, rfl⟩ := Prod.ext_iff.mp (Option.some.inj (heq.symm.trans h))
    exact .inl ⟨he, rfl⟩
  have hlport : (t.inp i).inpLport = 0 := hchecks.2.1
  have hladdr : (t.inp i).inpLaddr = iNADDR_ANY := hchecks.2.2.1
  by_cases hport : wantedPort nam = 0
  · rw [inPcbbind_search hchecks hport] at h
    obtain ⟨laddr, haddr, hloop⟩ := Option.bind_eq_some_iff.mp h
    obtain ⟨r, hr, hru⟩ := Option.map_eq_some_iff.mp hloop
    obtain ⟨rfl, rfl⟩ := Prod.ext_iff.mp hru
    refine .inr ⟨rfl, laddr, r.2, haddr, hlport, hladdr, rfl, ?_, fun _ hzero => ?_⟩
    · simp [setLport, setLaddr, modify]
    · obtain ⟨k, -, hends, rfl⟩ := (bindLoop_eq_some (.inr hzero) _ _).mp hr
      exact ⟨htons_ne_zero hends.1.ne_zero, ((endsAt_setLaddr hlport _ _).mp hends).2.1⟩
  · rcases inPcbbind_port stray hchecks hport with ⟨-, heq⟩ | ⟨-, heq⟩
    · obtain ⟨rfl, rfl⟩ := Prod.ext_iff.mp (Option.some.inj (heq.symm.trans h))
      exact .inl ⟨by simp [eADDRINUSE], rfl⟩
    · obtain ⟨rfl, rfl⟩ := Prod.ext_iff.mp (Option.some.inj (heq.symm.trans h))
      refine .inr ⟨rfl, _, wantedPort nam, bindAddr_of_wantedPort hport, hlport, hladdr, rfl, ?_,
        fun hzero => absurd hzero hport⟩
      simp [setLport, setLaddr, modify]

/-- The search sees the block itself, as long as it has no port. -/
theorem portUsed_zero {laddr : InAddr} {wild : BitVec 32} (hi : i ∈ t.chain) (hport : (t.inp i).inpLport = 0)
    (hfaddr : (t.inp i).inpFaddr = iNADDR_ANY) : (t.setLaddr i laddr).PortUsed laddr wild 0 := by
  refine ⟨i, hi, ?_⟩
  rw [setLaddr_inp_self]
  refine ⟨⟨hport, fun _ _ => rfl, fun _ hany => absurd rfl hany⟩, fun _ => ?_⟩
  simp [Inpcb.wilds, Net.wild, hfaddr]

theorem bindAddr_eq_wanted : bindAddr stray nam = some (wantedAddr nam) ↔ (nam = none → stray = some iNADDR_ANY) := by
  cases nam with
  | none => simp [bindAddr, wantedAddr]
  | some nam => simp [bindAddr, wantedAddr]

theorem countAt_distance (count n : BitVec 16) : countAt count (n - countAt count 0).toNat = n := by
  simp only [countAt]
  bv_omega

/-- The rounds before 65536 have different counters. -/
theorem eq_distance {count n : BitVec 16} {k : ℕ} (hk : k < 2 ^ 16) (h : countAt count k = n) :
    k = (n - countAt count 0).toNat := by
  subst h
  simp only [countAt]
  bv_omega

/-- The search ends in the range exactly when it ends with 1024. -/
theorem search_iff (h : t.BindChecks ifs i nam) (hport : wantedPort nam = 0) :
    (∃ n u, Ephemeral n ∧ ¬ t.PortUsed (wantedAddr nam) (t.inp i).inpSocket.wild (htons n) ∧
        t.inPcbbind ifs stray i nam = some (0, u) ∧
        u.inp i = { t.inp i with inpLaddr := wantedAddr nam, inpLport := htons n }) ↔
      (nam = none → stray = some iNADDR_ANY) ∧
        (Searched (countAt t.headLport 0) ∨
          (t.setLaddr i (wantedAddr nam)).PortUsed (wantedAddr nam) (t.inp i).inpSocket.wild 0) ∧
        ¬ t.PortUsed (wantedAddr nam) (t.inp i).inpSocket.wild (htons iPPORT_RESERVED) ∧
        ∀ k < (iPPORT_RESERVED - countAt t.headLport 0).toNat, Searched (countAt t.headLport k) →
          t.PortUsed (wantedAddr nam) (t.inp i).inpSocket.wild (htons (countAt t.headLport k)) := by
  have hlport : (t.inp i).inpLport = 0 := h.2.1
  rw [inPcbbind_search h hport, ← bindAddr_eq_wanted]
  constructor
  · rintro ⟨n, u, heph, hfree, hres, hu⟩
    obtain ⟨laddr, haddr, hloop⟩ := Option.bind_eq_some_iff.mp hres
    obtain ⟨r, hr, hru⟩ := Option.map_eq_some_iff.mp hloop
    obtain rfl := (Prod.ext_iff.mp hru).2
    have hinp : ({ t.setLaddr i laddr with headLport := r.1 }.setLport i r.2).inp i =
        { t.inp i with inpLaddr := laddr, inpLport := r.2 } := by
      rw [setLport_inp_self, setLaddr_inp_self]
    simp only at hu
    rw [hinp, Inpcb.mk.injEq] at hu
    obtain ⟨-, -, rfl, hn, -⟩ := hu
    by_cases hbusy : Searched (countAt t.headLport 0) ∨
        (t.setLaddr i (wantedAddr nam)).PortUsed (wantedAddr nam) (t.inp i).inpSocket.wild 0
    · obtain ⟨k, hk, hends, rfl⟩ := (bindLoop_eq_some hbusy _ _).mp hr
      rw [endsAt_setLaddr hlport] at hends
      have hswap : htons (countAt t.headLport k) = htons n := hn
      have hcount : countAt t.headLport k = n := by rw [← htons_htons (countAt _ k), hswap, htons_htons]
      have h1024 : n = iPPORT_RESERVED := (hcount ▸ hends.1).ephemeral heph
      rw [← eq_distance hk (hcount.trans h1024)]
      exact ⟨haddr, hbusy, h1024 ▸ hfree, hends.2.2⟩
    · rw [show 2 ^ 16 = 65535 + 1 from rfl, bindLoop_of_free hbusy] at hr
      obtain rfl := Option.some.inj hr
      have hzero : n = 0 := by
        rw [← htons_htons n, ← hn]
        exact show htons 0 = 0 by decide
      subst hzero
      exact absurd heph (by unfold Ephemeral; decide)
  · rintro ⟨haddr, hbusy, hfree, hbefore⟩
    have hcount := countAt_distance t.headLport iPPORT_RESERVED
    have hends : t.EndsAt (wantedAddr nam) (t.inp i).inpSocket.wild t.headLport
        (iPPORT_RESERVED - countAt t.headLport 0).toNat := by
      refine ⟨?_, ?_, hbefore⟩
      · rw [hcount]
        decide
      · rwa [hcount]
    have hloop := (bindLoop_eq_some hbusy (2 ^ 16) _).mpr
      ⟨_, BitVec.isLt _, (endsAt_setLaddr hlport _ _).mpr hends, rfl⟩
    rw [hcount] at hloop
    rw [haddr, Option.bind_some, hloop, Option.map_some]
    refine ⟨iPPORT_RESERVED, _, by unfold Ephemeral; decide, hfree, rfl, ?_⟩
    simp only
    rw [setLport_inp_self, setLaddr_inp_self]

/-- `in_pcbbind` does what its callers expect exactly when the search happens to end with 1024, at the right address,
and the block that the port is checked against is in conflict if any is. -/
theorem bindRight_iff (t : PcbTable ι) (ifs : Interfaces) (stray : Option InAddr) (i : ι) (nam : Option Nam) :
    t.BindRight ifs stray i nam ↔ t.BindOk ifs stray i nam := by
  constructor
  · rintro ⟨hsearch, hright, -⟩
    refine ⟨fun hchecks hport hfree => (search_iff hchecks hport).mp (hsearch hchecks hport hfree), ?_⟩
    rintro hchecks hport ⟨j, hj, hconf⟩
    rcases inPcbbind_port stray hchecks hport with ⟨hex, -⟩ | ⟨-, heq⟩
    · exact hex
    · exact absurd hconf ((hright hchecks hport).mp ⟨_, heq⟩ j hj)
  · rintro ⟨hsearch, hright⟩
    refine ⟨fun hchecks hport hfree => (search_iff hchecks hport).mpr (hsearch hchecks hport hfree), ?_, ?_⟩
    · intro hchecks hport
      rcases inPcbbind_port stray hchecks hport with ⟨⟨k, hk, hconf⟩, heq⟩ | ⟨hno, heq⟩
      · refine iff_of_false ?_ fun hall => hall k hk.mem hconf
        rintro ⟨u, hu⟩
        have hcode : -eADDRINUSE = 0 := (Prod.ext_iff.mp (Option.some.inj (heq.symm.trans hu))).1
        exact absurd hcode (by decide)
      · refine iff_of_true ⟨_, heq⟩ fun j hj hconf => ?_
        obtain ⟨k, hk, hkconf⟩ := hright hchecks hport ⟨j, hj, hconf⟩
        exact hno k hk hkconf
    · intro e u hres he
      rw [inPcbbind_fails hres he]

/-- A table with one new block. -/
def single : PcbTable Unit :=
  ⟨0, [()], fun _ => ⟨iNADDR_ANY, 0, iNADDR_ANY, 0, ⟨0, false, false⟩⟩⟩

/-- In a table where every port is free, the first port is 1. -/
theorem bind_single_low : ¬ single.BindRight ⟨true, fun _ => false⟩ (some iNADDR_ANY) () none := by
  intro h
  have hchecks : single.BindChecks ⟨true, fun _ => false⟩ () none := ⟨rfl, rfl, rfl, _, rfl⟩
  have hfree : ∀ p : BitVec 16, p ≠ 0 → ¬ single.PortUsed iNADDR_ANY iNPLOOKUP_WILDCARD p := by
    rintro p hp ⟨j, -, hj⟩
    exact hp hj.1.lport.symm
  have heph : single.EphemeralFree () none := by
    refine ⟨iPPORT_RESERVED, by unfold Ephemeral; decide, hfree _ (by decide)⟩
  obtain ⟨-, -, -, hbefore⟩ := (search_iff hchecks rfl).mp (h.search hchecks rfl heph)
  exact hfree _ (by decide) (hbefore 0 (by decide) (by decide))

end PcbTable

end Shaunos.Net
