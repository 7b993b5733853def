import Mathlib
import Shaunos.Common.FirstLeast

/-!
# Looking up a protocol control block

Reference: `Kernel/netinet/in_pcb.c` (`in_pcblookup`), `Include/kernel/sys/netinet/in_pcb.h`.

The blocks of a protocol form a list behind a head. An address 0 is a wildcard, in a block as well as in what is
looked up: `INADDR_ANY`.

* `inPcblookup_spec` — which block is found.
-/

namespace Shaunos.Net

/-! ## The code -/

/-- `struct in_addr`, in network byte order. -/
abbrev InAddr := BitVec 32

def iNADDR_ANY : InAddr := 0

def iNPLOOKUP_WILDCARD : BitVec 32 := 1

/-- What `in_pcb.c` reads of a socket. -/
structure PcbSocket where
  soOptions : BitVec 16
  /-- `PR_CONNREQUIRED` in the flags of the protocol. -/
  prConnrequired : Bool
  /-- `SS_NOFDREF` in `so_state`. -/
  ssNofdref : Bool
deriving DecidableEq

/-- `struct inpcb`, with its socket. -/
structure Inpcb where
  inpFaddr : InAddr
  inpFport : BitVec 16
  inpLaddr : InAddr
  inpLport : BitVec 16
  inpSocket : PcbSocket
deriving DecidableEq

/-- `udb` or `tcb`, with the blocks that follow it. -/
structure PcbTable (ι : Type*) where
  /-- `head->inp_lport`, in host byte order. -/
  headLport : BitVec 16
  chain : List ι
  inp : ι → Inpcb

namespace Inpcb

/-- The body of the loop up to the count: `none` where it continues with the next block. -/
def wildcard (p : Inpcb) (faddr : InAddr) (fport : BitVec 16) (laddr : InAddr) (lport : BitVec 16) : Option ℕ :=
  if p.inpLport ≠ lport then none
  else
    let atLaddr : Option ℕ :=
      if p.inpLaddr ≠ iNADDR_ANY then
        if laddr = iNADDR_ANY then some 1
        else if p.inpLaddr ≠ laddr then none
        else some 0
      else if laddr ≠ iNADDR_ANY then some 1
      else some 0
    atLaddr.bind fun wildcard =>
      if p.inpFaddr ≠ iNADDR_ANY then
        if faddr = iNADDR_ANY then some (wildcard + 1)
        else if p.inpFaddr ≠ faddr ∨ p.inpFport ≠ fport then none
        else some wildcard
      else if faddr ≠ iNADDR_ANY then some (wildcard + 1)
      else some wildcard

end Inpcb

namespace PcbTable

variable {ι : Type*} (t : PcbTable ι)

/-- The loop of `in_pcblookup`. -/
def lookupLoop (faddr : InAddr) (fport : BitVec 16) (laddr : InAddr) (lport : BitVec 16) (flags : BitVec 32) :
    List ι → Option ι → ℕ → Option ι
  | [], best, _ => best
  | i :: rest, best, matchwild =>
      match (t.inp i).wildcard faddr fport laddr lport with
      | none => lookupLoop faddr fport laddr lport flags rest best matchwild
      | some wildcard =>
          if wildcard ≠ 0 ∧ flags &&& iNPLOOKUP_WILDCARD = 0 then
            lookupLoop faddr fport laddr lport flags rest best matchwild
          else if wildcard < matchwild then
            if wildcard = 0 then some i
            else lookupLoop faddr fport laddr lport flags rest (some i) wildcard
          else lookupLoop faddr fport laddr lport flags rest best matchwild

def inPcblookup (faddr : InAddr) (fportArg : BitVec 32) (laddr : InAddr) (lportArg : BitVec 32)
    (flags : BitVec 32) : Option ι :=
  t.lookupLoop faddr (fportArg.setWidth 16) laddr (lportArg.setWidth 16) flags t.chain none 3

end PcbTable

/-! ## Which blocks agree -/

/-- Of the two addresses, exactly one is a wildcard. -/
def wild (x y : InAddr) : ℕ := if x = iNADDR_ANY ↔ y = iNADDR_ANY then 0 else 1

namespace Inpcb

/-- The local port is `lport`, and where an address is a wildcard neither in the block nor in what is looked up, both
have the same one; to a foreign address belongs its port. -/
structure Agrees (p : Inpcb) (faddr : InAddr) (fport : BitVec 16) (laddr : InAddr) (lport : BitVec 16) : Prop where
  lport : p.inpLport = lport
  laddr : p.inpLaddr ≠ iNADDR_ANY → laddr ≠ iNADDR_ANY → p.inpLaddr = laddr
  faddr : p.inpFaddr ≠ iNADDR_ANY → faddr ≠ iNADDR_ANY → p.inpFaddr = faddr ∧ p.inpFport = fport

/-- How many addresses match because of a wildcard. -/
def wilds (p : Inpcb) (faddr laddr : InAddr) : ℕ := wild p.inpLaddr laddr + wild p.inpFaddr faddr

/-- The block can be found. -/
def Candidate (p : Inpcb) (faddr : InAddr) (fport : BitVec 16) (laddr : InAddr) (lport : BitVec 16)
    (flags : BitVec 32) : Prop :=
  p.Agrees faddr fport laddr lport ∧ (flags &&& iNPLOOKUP_WILDCARD = 0 → p.wilds faddr laddr = 0)

variable {p : Inpcb} {faddr laddr : InAddr} {fport lport : BitVec 16} {flags : BitVec 32}

theorem wilds_lt : p.wilds faddr laddr < 3 := by
  simp only [wilds, wild]
  split_ifs <;> decide

theorem wildcard_of_agrees (h : p.Agrees faddr fport laddr lport) :
    p.wildcard faddr fport laddr lport = some (p.wilds faddr laddr) := by
  obtain ⟨hport, hladdr, hfaddr⟩ := h
  rw [wildcard, if_neg (not_not.mpr hport)]
  by_cases hl : p.inpLaddr = iNADDR_ANY <;> by_cases hl' : laddr = iNADDR_ANY <;>
    by_cases hf : p.inpFaddr = iNADDR_ANY <;> by_cases hf' : faddr = iNADDR_ANY <;>
    simp_all [wilds, wild]

theorem agrees_of_wildcard {w : ℕ} (h : p.wildcard faddr fport laddr lport = some w) :
    p.Agrees faddr fport laddr lport := by
  rw [wildcard] at h
  by_cases hport : p.inpLport = lport
  swap
  · rw [if_pos hport] at h
    cases h
  rw [if_neg (not_not.mpr hport)] at h
  refine ⟨hport, ?_, ?_⟩
  · intro hl hl'
    by_contra hne
    simp [hl, hl', hne] at h
  · intro hf hf'
    by_contra hne
    rw [not_and_or] at hne
    obtain ⟨v, -, hv⟩ := Option.bind_eq_some_iff.mp h
    simp [hf, hf', hne] at hv

open Classical in
/-- What the count says to the loop: the wildcards of a block that can be found. -/
noncomputable def score (p : Inpcb) (faddr : InAddr) (fport : BitVec 16) (laddr : InAddr) (lport : BitVec 16)
    (flags : BitVec 32) : Option ℕ :=
  if p.Candidate faddr fport laddr lport flags then some (p.wilds faddr laddr) else none

theorem candidate_of_wildcard (hflag : flags &&& iNPLOOKUP_WILDCARD ≠ 0) :
    p.Candidate faddr fport laddr lport flags ↔ p.Agrees faddr fport laddr lport :=
  and_iff_left fun h => absurd h hflag

/-- Addresses and local port are the same, and the foreign port is where there is a foreign address. -/
def Exact (p : Inpcb) (faddr : InAddr) (fport : BitVec 16) (laddr : InAddr) (lport : BitVec 16) : Prop :=
  p.inpLport = lport ∧ p.inpLaddr = laddr ∧ p.inpFaddr = faddr ∧ (faddr ≠ iNADDR_ANY → p.inpFport = fport)

instance : Decidable (p.Exact faddr fport laddr lport) := inferInstanceAs (Decidable (_ ∧ _))

theorem exact_iff : p.Exact faddr fport laddr lport ↔ p.Agrees faddr fport laddr lport ∧ p.wilds faddr laddr = 0 := by
  constructor
  · rintro ⟨rfl, rfl, rfl, hfport⟩
    refine ⟨⟨rfl, fun _ _ => rfl, fun _ hne => ⟨rfl, hfport hne⟩⟩, ?_⟩
    simp [wilds, wild]
  · rintro ⟨⟨hport, hladdr, hfaddr⟩, hwilds⟩
    obtain ⟨hl, hf⟩ := Nat.add_eq_zero_iff.mp hwilds
    rw [wild, ite_eq_left_iff] at hl hf
    have hl : p.inpLaddr = iNADDR_ANY ↔ laddr = iNADDR_ANY := by simpa using hl
    have hf : p.inpFaddr = iNADDR_ANY ↔ faddr = iNADDR_ANY := by simpa using hf
    refine ⟨hport, ?_, ?_, fun hne => (hfaddr (hf.not.mpr hne) hne).2⟩
    · by_cases h : laddr = iNADDR_ANY
      · rw [hl.mpr h, h]
      · exact hladdr (hl.not.mpr h) h
    · by_cases h : faddr = iNADDR_ANY
      · rw [hf.mpr h, h]
      · exact (hfaddr (hf.not.mpr h) h).1

/-- Without `INPLOOKUP_WILDCARD` a block is found by its own addresses only. -/
theorem candidate_exact (hflag : flags &&& iNPLOOKUP_WILDCARD = 0) :
    p.Candidate faddr fport laddr lport flags ↔ p.Exact faddr fport laddr lport := by
  rw [exact_iff]
  exact and_congr_right fun _ => forall_prop_of_true hflag

theorem mem_score {w : ℕ} :
    w ∈ p.score faddr fport laddr lport flags ↔
      p.Candidate faddr fport laddr lport flags ∧ p.wilds faddr laddr = w := by
  rw [score, Option.mem_def]
  split_ifs with h
  · simp [h]
  · simp [h]

end Inpcb

namespace PcbTable

variable {ι : Type*} (t : PcbTable ι) (faddr : InAddr) (fport : BitVec 16) (laddr : InAddr) (lport : BitVec 16)
  (flags : BitVec 32)

/-- The loop is a scan for the least number of wildcards. -/
theorem lookupLoop_eq (l : List ι) (best : Option ι) (matchwild : ℕ) :
    t.lookupLoop faddr fport laddr lport flags l best matchwild =
      scanLeast (fun i => (t.inp i).score faddr fport laddr lport flags) l best matchwild := by
  induction l generalizing best matchwild with
  | nil => rfl
  | cons i rest ih =>
      rw [lookupLoop, scanLeast]
      by_cases hagrees : (t.inp i).Agrees faddr fport laddr lport
      · rw [Inpcb.wildcard_of_agrees hagrees]
        by_cases hflag : flags &&& iNPLOOKUP_WILDCARD = 0 → (t.inp i).wilds faddr laddr = 0
        · have hscore : (t.inp i).score faddr fport laddr lport flags = some ((t.inp i).wilds faddr laddr) :=
            if_pos ⟨hagrees, hflag⟩
          rw [hscore]
          have hgoes : ¬ ((t.inp i).wilds faddr laddr ≠ 0 ∧ flags &&& iNPLOOKUP_WILDCARD = 0) :=
            fun h => h.1 (hflag h.2)
          simp only [if_neg hgoes, ih]
        · have hscore : (t.inp i).score faddr fport laddr lport flags = none := if_neg fun h => hflag h.2
          rw [hscore]
          push Not at hflag
          simp only [if_pos (And.intro hflag.2 hflag.1), ih]
      · have hscore : (t.inp i).score faddr fport laddr lport flags = none := if_neg fun h => hagrees h.1
        have hnone : (t.inp i).wildcard faddr fport laddr lport = none := by
          by_contra hne
          obtain ⟨w, hw⟩ := Option.ne_none_iff_exists'.mp hne
          exact hagrees (Inpcb.agrees_of_wildcard hw)
        rw [hscore, hnone]
        exact ih best matchwild

variable {t faddr fport laddr lport flags}

theorem score_lt (b : ι) (v : ℕ) (hv : v ∈ (t.inp b).score faddr fport laddr lport flags) : v < 3 := by
  obtain ⟨-, rfl⟩ := Inpcb.mem_score.mp hv
  exact Inpcb.wilds_lt

end PcbTable

/-! ## Which block is found -/

namespace PcbTable

variable {ι : Type*} {t : PcbTable ι} {faddr laddr : InAddr} {fportArg lportArg flags : BitVec 32} {i : ι}

/-- Of the blocks that can be found, `i` is the first with the least number of wildcards. -/
def FirstBest (t : PcbTable ι) (faddr : InAddr) (fport : BitVec 16) (laddr : InAddr) (lport : BitVec 16)
    (flags : BitVec 32) (i : ι) : Prop :=
  ∃ pre post, t.chain = pre ++ i :: post ∧ (t.inp i).Candidate faddr fport laddr lport flags ∧
    (∀ j ∈ pre, (t.inp j).Candidate faddr fport laddr lport flags →
      (t.inp i).wilds faddr laddr < (t.inp j).wilds faddr laddr) ∧
    ∀ j ∈ post, (t.inp j).Candidate faddr fport laddr lport flags →
      (t.inp i).wilds faddr laddr ≤ (t.inp j).wilds faddr laddr

theorem firstBest_iff {fport lport : BitVec 16} :
    t.FirstBest faddr fport laddr lport flags i ↔
      FirstLeast (fun i => (t.inp i).score faddr fport laddr lport flags) t.chain i := by
  constructor
  · rintro ⟨pre, post, hchain, hi, hpre, hpost⟩
    refine ⟨pre, post, _, hchain, Inpcb.mem_score.mpr ⟨hi, rfl⟩, ?_, ?_⟩
    · intro j hj v hv
      obtain ⟨hcand, rfl⟩ := Inpcb.mem_score.mp hv
      exact hpre j hj hcand
    · intro j hj v hv
      obtain ⟨hcand, rfl⟩ := Inpcb.mem_score.mp hv
      exact hpost j hj hcand
  · rintro ⟨pre, post, w, hchain, hi, hpre, hpost⟩
    obtain ⟨hcand, rfl⟩ := Inpcb.mem_score.mp hi
    refine ⟨pre, post, hchain, hcand, ?_, ?_⟩
    · exact fun j hj hcand => hpre j hj _ (Inpcb.mem_score.mpr ⟨hcand, rfl⟩)
    · exact fun j hj hcand => hpost j hj _ (Inpcb.mem_score.mpr ⟨hcand, rfl⟩)

theorem FirstBest.candidate {fport lport : BitVec 16} (h : t.FirstBest faddr fport laddr lport flags i) :
    (t.inp i).Candidate faddr fport laddr lport flags := by
  obtain ⟨_, _, _, hcand, _⟩ := h
  exact hcand

theorem FirstBest.mem {fport lport : BitVec 16} (h : t.FirstBest faddr fport laddr lport flags i) : i ∈ t.chain :=
  (firstBest_iff.mp h).mem

theorem firstBest_unique {fport lport : BitVec 16} {j : ι} (hi : t.FirstBest faddr fport laddr lport flags i)
    (hj : t.FirstBest faddr fport laddr lport flags j) : i = j :=
  firstLeast_unique (firstBest_iff.mp hi) (firstBest_iff.mp hj)

/-- A block that matches exactly is found unless another one in front of it does. -/
theorem firstBest_of_exact {fport lport : BitVec 16} (hi : (t.inp i).Exact faddr fport laddr lport) :
    t.FirstBest faddr fport laddr lport flags i ↔
      ∃ pre post, t.chain = pre ++ i :: post ∧ ∀ j ∈ pre, ¬ (t.inp j).Exact faddr fport laddr lport := by
  obtain ⟨hagrees, hwilds⟩ := Inpcb.exact_iff.mp hi
  constructor
  · rintro ⟨pre, post, hchain, -, hpre, -⟩
    refine ⟨pre, post, hchain, fun j hj hexact => ?_⟩
    obtain ⟨hjagrees, hjwilds⟩ := Inpcb.exact_iff.mp hexact
    have hlt := hpre j hj ⟨hjagrees, fun _ => hjwilds⟩
    omega
  · rintro ⟨pre, post, hchain, hpre⟩
    refine ⟨pre, post, hchain, ⟨hagrees, fun _ => hwilds⟩, fun j hj hcand => ?_, fun j hj hcand => ?_⟩
    · have hne : (t.inp j).wilds faddr laddr ≠ 0 := fun hzero => hpre j hj (Inpcb.exact_iff.mpr ⟨hcand.1, hzero⟩)
      omega
    · omega

theorem inPcblookup_eq_some :
    t.inPcblookup faddr fportArg laddr lportArg flags = some i ↔
      t.FirstBest faddr (fportArg.setWidth 16) laddr (lportArg.setWidth 16) flags i := by
  rw [inPcblookup, lookupLoop_eq, firstBest_iff]
  exact scanLeast_eq_some fun j _ => score_lt j

theorem inPcblookup_eq_none :
    t.inPcblookup faddr fportArg laddr lportArg flags = none ↔
      ∀ i ∈ t.chain,
        ¬ (t.inp i).Candidate faddr (fportArg.setWidth 16) laddr (lportArg.setWidth 16) flags := by
  rw [inPcblookup, lookupLoop_eq, scanLeast_eq_none fun j _ => score_lt j]
  refine forall₂_congr fun j _ => ?_
  rw [Inpcb.score]
  split_ifs with h
  · simp [h]
  · simp [h]

/-- `in_pcblookup` finds the first block in the list that has the least number of wildcard matches among the blocks
that agree on the local port and on every address that is no wildcard, of these only the exact ones without
`INPLOOKUP_WILDCARD`, and it finds none exactly when there is no such block. -/
theorem inPcblookup_spec (t : PcbTable ι) (faddr : InAddr) (fportArg : BitVec 32) (laddr : InAddr)
    (lportArg flags : BitVec 32) :
    (∀ i, t.inPcblookup faddr fportArg laddr lportArg flags = some i ↔
      t.FirstBest faddr (fportArg.setWidth 16) laddr (lportArg.setWidth 16) flags i) ∧
    (t.inPcblookup faddr fportArg laddr lportArg flags = none ↔
      ∀ i ∈ t.chain,
        ¬ (t.inp i).Candidate faddr (fportArg.setWidth 16) laddr (lportArg.setWidth 16) flags) :=
  ⟨fun _ => inPcblookup_eq_some, inPcblookup_eq_none⟩

end PcbTable

end Shaunos.Net
