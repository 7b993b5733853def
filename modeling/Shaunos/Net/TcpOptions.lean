import Shaunos.Common.RecordWalk
import Shaunos.Net.TcpMss

/-!
# The options of a segment

Reference: `Kernel/netinet/tcp_input.c` (`tcp_dooptions`), `Include/kernel/sys/netinet/tcp.h`.

The loop goes on as long as bytes are left, and takes a length from the byte behind the kind of an option. It looks
neither at how many bytes are left nor for a length of 1.

* `dooptionsRight_iff` — the blocks of options that are read as they should be.
-/

namespace Shaunos.Net

/-! ## The code -/

def tcpoptEOL : Byte := 0
def tcpoptNOP : Byte := 1
def tcpoptMAXSEG : Byte := 2
def tcpoptWINDOW : Byte := 3
def tcpoptTIMESTAMP : Byte := 8
def tcpolenMAXSEG : ℕ := 4
def tcpolenWINDOW : ℕ := 3
def tcpolenTIMESTAMP : ℕ := 10

/-- What `tcp_dooptions` changes, and what it does on the way. -/
structure OptionState where
  so : Socket
  tp : Tcpcb
  tsPresent : Bool
  tsVal : BitVec 32
  tsEcr : BitVec 32
  /-- The bytes that were read. No code reads this. -/
  reads : List ℕ
  /-- Where an option was looked at. No code reads this. -/
  seen : List ℕ
  /-- Where an option was used. No code reads this. -/
  used : List ℕ

/-- A number in network order. -/
def ntohs (mem : ℕ → Byte) (p : ℕ) : BitVec 16 := mem p ++ mem (p + 1)

def ntohl (mem : ℕ → Byte) (p : ℕ) : BitVec 32 := mem p ++ mem (p + 1) ++ mem (p + 2) ++ mem (p + 3)

section

variable (mem : ℕ → Byte) (syn : Bool)

/-- `optlen`. -/
def optlen (p : ℕ) : ℕ := if mem p = tcpoptNOP then 1 else (mem (p + 1)).toNat

/-- `break`. -/
def optionStop (p : ℕ) : Bool := mem p = tcpoptEOL ∨ optlen mem p = 0

/-- The option is one of those that are used. -/
def optionUsed (p : ℕ) : Bool :=
  (mem p = tcpoptMAXSEG ∧ optlen mem p = tcpolenMAXSEG ∧ syn) ∨
    (mem p = tcpoptWINDOW ∧ optlen mem p = tcpolenWINDOW ∧ syn) ∨
    (mem p = tcpoptTIMESTAMP ∧ optlen mem p = tcpolenTIMESTAMP)

/-- The bytes that are read for an option. -/
def optionReads (p : ℕ) : List ℕ :=
  p :: (if mem p = tcpoptEOL ∨ mem p = tcpoptNOP then [] else [p + 1]) ++
    if optionUsed mem syn p then (List.range (optlen mem p - 2)).map (p + 2 + ·) else []

/-- The body of the loop. -/
def tcpDooption (rt : Option Rtentry) (p : ℕ) (s : OptionState) : OptionState × Option ℕ :=
  let s := { s with
    reads := optionReads mem syn p ++ s.reads
    seen := p :: s.seen
    used := (if optionUsed mem syn p then [p] else []) ++ s.used }
  let opt := mem p
  if opt = tcpoptEOL then (s, none)
  else
    let optlen := optlen mem p
    if optlen = 0 then (s, none)
    else if opt = tcpoptMAXSEG ∧ optlen = tcpolenMAXSEG ∧ syn then
      let (_, so, tp) := tcpMss rt s.so s.tp (ntohs mem (p + 2))
      ({ s with so, tp }, some optlen)
    else if opt = tcpoptWINDOW ∧ optlen = tcpolenWINDOW ∧ syn then
      ({ s with tp := { s.tp with
        tfRcvdScale := true
        requestedSScale := min (mem (p + 2)).toNat tcpMAXWINSHIFT } }, some optlen)
    else if opt = tcpoptTIMESTAMP ∧ optlen = tcpolenTIMESTAMP then
      ({ s with tsPresent := true, tsVal := ntohl mem (p + 2), tsEcr := ntohl mem (p + 6) }, some optlen)
    else (s, some optlen)

/-- `tcp_dooptions`, with at most `fuel` options. -/
def tcpDooptions (rt : Option Rtentry) (fuel cnt : ℕ) (s : OptionState) : Option OptionState :=
  walk (tcpDooption mem syn rt) cnt fuel 0 s

end

/-! ## What should happen -/

/-- The length byte is missing, less than 2 or larger than what is left. -/
def BadOption (mem : ℕ → Byte) (cnt p : ℕ) : Prop :=
  mem p ≠ tcpoptEOL ∧ mem p ≠ tcpoptNOP ∧ (cnt ≤ p + 1 ∨ (mem (p + 1)).toNat < 2 ∨ cnt < p + (mem (p + 1)).toNat)

instance (mem : ℕ → Byte) (cnt p : ℕ) : Decidable (BadOption mem cnt p) := inferInstanceAs (Decidable (_ ∧ _))

/-- `tcp_dooptions` comes to an end, reads nothing behind the block, and a bad option is the last that is looked at
and is not used. -/
def DooptionsRight (mem : ℕ → Byte) (syn : Bool) (cnt : ℕ) : Prop :=
  ∀ rt s, s.reads = [] → s.seen = [] → s.used = [] →
    ∃ r, tcpDooptions mem syn rt (cnt + 1) cnt s = some r ∧ (∀ x ∈ r.reads, x < cnt) ∧
      ∀ p ∈ r.seen, BadOption mem cnt p → p ∉ r.used ∧ ∀ q ∈ r.seen, q ≤ p

/-- An option has its length byte in the block, the length is not 1, and if it is larger than what is left it is not
the length of an option that is used. -/
def OptionOk (mem : ℕ → Byte) (syn : Bool) (cnt p : ℕ) : Prop :=
  mem p = tcpoptEOL ∨ mem p = tcpoptNOP ∨
    (p + 1 < cnt ∧ (mem (p + 1)).toNat ≠ 1 ∧ (cnt < p + (mem (p + 1)).toNat → optionUsed mem syn p = false))

instance (mem : ℕ → Byte) (syn : Bool) (cnt p : ℕ) : Decidable (OptionOk mem syn cnt p) :=
  inferInstanceAs (Decidable (_ ∨ _))

/-- All options that the lengths lead to are so. -/
def BlockOk (mem : ℕ → Byte) (syn : Bool) (cnt : ℕ) : Prop :=
  ∀ p < cnt, Visited (optlen mem) (optionStop mem) cnt 0 p → OptionOk mem syn cnt p

section

variable {mem : ℕ → Byte} {syn : Bool} {rt : Option Rtentry} {cnt p q x : ℕ} {s r : OptionState}

/-! ## One option -/

theorem tcpDooption_log (mem : ℕ → Byte) (syn : Bool) (rt : Option Rtentry) (p : ℕ) (s : OptionState) :
    (tcpDooption mem syn rt p s).1.reads = optionReads mem syn p ++ s.reads ∧
    (tcpDooption mem syn rt p s).1.seen = p :: s.seen ∧
    (tcpDooption mem syn rt p s).1.used = (if optionUsed mem syn p then [p] else []) ++ s.used := by
  rw [tcpDooption]
  dsimp only
  split_ifs <;> exact ⟨rfl, rfl, rfl⟩

theorem tcpDooption_next (mem : ℕ → Byte) (syn : Bool) (rt : Option Rtentry) (p : ℕ) (s : OptionState) :
    (tcpDooption mem syn rt p s).2 = if optionStop mem p then none else some (optlen mem p) := by
  rw [tcpDooption, optionStop]
  dsimp only
  simp only [decide_eq_true_eq]
  by_cases heol : mem p = tcpoptEOL
  · rw [if_pos heol, if_pos (show mem p = tcpoptEOL ∨ _ from .inl heol)]
  rw [if_neg heol]
  by_cases hzero : optlen mem p = 0
  · rw [if_pos hzero, if_pos (show _ ∨ optlen mem p = 0 from .inr hzero)]
  rw [if_neg hzero, if_neg (not_or.mpr ⟨heol, hzero⟩)]
  split_ifs <;> rfl

/-- The options that are used have another kind than the two of one byte, and a length from 3 to 10. -/
theorem optionUsed_spec (h : optionUsed mem syn p = true) :
    mem p ≠ tcpoptEOL ∧ mem p ≠ tcpoptNOP ∧ 3 ≤ optlen mem p := by
  rw [optionUsed, decide_eq_true_eq] at h
  rcases h with ⟨hkind, hlen, _⟩ | ⟨hkind, hlen, _⟩ | ⟨hkind, hlen⟩
  · rw [hkind, hlen]
    decide
  · rw [hkind, hlen]
    decide
  · rw [hkind, hlen]
    decide

theorem optlen_eq (h : mem p ≠ tcpoptNOP) : optlen mem p = (mem (p + 1)).toNat := if_neg h

theorem mem_optionReads : x ∈ optionReads mem syn p ↔ x = p ∨
    (mem p ≠ tcpoptEOL ∧ mem p ≠ tcpoptNOP ∧ x = p + 1) ∨
    (optionUsed mem syn p = true ∧ p + 2 ≤ x ∧ x < p + optlen mem p) := by
  rw [optionReads, List.cons_append, List.mem_cons, List.mem_append]
  refine or_congr_right (or_congr ?_ ?_)
  · by_cases h : mem p = tcpoptEOL ∨ mem p = tcpoptNOP
    · rw [if_pos h]
      simp only [List.not_mem_nil, false_iff]
      rintro ⟨heol, hnop, _⟩
      exact not_or.mpr ⟨heol, hnop⟩ h
    · rw [if_neg h, List.mem_singleton]
      exact ⟨fun hx => ⟨(not_or.mp h).1, (not_or.mp h).2, hx⟩, fun hx => hx.2.2⟩
  · by_cases h : optionUsed mem syn p = true
    · rw [if_pos h, List.mem_map]
      constructor
      · rintro ⟨i, hi, rfl⟩
        rw [List.mem_range] at hi
        exact ⟨h, by omega, by omega⟩
      · rintro ⟨_, hle, hlt⟩
        exact ⟨x - (p + 2), List.mem_range.mpr (by omega), by omega⟩
    · rw [if_neg h]
      simp [h]

/-! ## The block -/

/-- `tcp_dooptions` comes to an end. -/
theorem exists_tcpDooptions (mem : ℕ → Byte) (syn : Bool) (rt : Option Rtentry) (cnt : ℕ) (s : OptionState) :
    ∃ r, tcpDooptions mem syn rt (cnt + 1) cnt s = some r := by
  refine exists_walk (fun p s s' len _ hact => ?_) (by omega)
  have hnext := tcpDooption_next mem syn rt p s
  rw [hact, optionStop] at hnext
  by_cases hstop : mem p = tcpoptEOL ∨ optlen mem p = 0
  · rw [decide_eq_true hstop] at hnext
    cases hnext
  · rw [decide_eq_false hstop] at hnext
    obtain rfl := Option.some.inj hnext
    exact Nat.pos_of_ne_zero (not_or.mp hstop).2

/-- What was logged. -/
theorem tcpDooptions_log (hcnt : 0 < cnt) (hreads : s.reads = []) (hseen : s.seen = []) (hused : s.used = [])
    (h : tcpDooptions mem syn rt (cnt + 1) cnt s = some r) :
    (∀ x, x ∈ r.reads ↔ ∃ q, Visited (optlen mem) (optionStop mem) cnt 0 q ∧ x ∈ optionReads mem syn q) ∧
      (∀ x, x ∈ r.seen ↔ Visited (optlen mem) (optionStop mem) cnt 0 x) ∧
      ∀ x, x ∈ r.used ↔ Visited (optlen mem) (optionStop mem) cnt 0 x ∧ optionUsed mem syn x = true := by
  refine ⟨fun x => ?_, fun x => ?_, fun x => ?_⟩
  · rw [mem_walk_iff (fun p s => (tcpDooption_log mem syn rt p s).1) (tcpDooption_next mem syn rt) hcnt h, hreads]
    simp
  · rw [mem_walk_iff (f := OptionState.seen) (g := fun p => [p]) (fun p s => (tcpDooption_log mem syn rt p s).2.1)
      (tcpDooption_next mem syn rt) hcnt h, hseen]
    simp
  · rw [mem_walk_iff (fun p s => (tcpDooption_log mem syn rt p s).2.2) (tcpDooption_next mem syn rt) hcnt h, hused]
    constructor
    · rintro (⟨q, hq, hx⟩ | hx)
      · split at hx
        · obtain rfl := List.mem_singleton.mp hx
          exact ⟨hq, ‹_›⟩
        · cases hx
      · cases hx
    · rintro ⟨hx, hused⟩
      exact .inl ⟨x, hx, by rw [if_pos hused]; exact List.mem_singleton_self x⟩

theorem OptionOk.of_right (hp : Visited (optlen mem) (optionStop mem) cnt 0 p)
    (hreads : ∀ x ∈ optionReads mem syn p, x < cnt)
    (hbad : BadOption mem cnt p → optionUsed mem syn p = false ∧
      ∀ q, Visited (optlen mem) (optionStop mem) cnt 0 q → q ≤ p) : OptionOk mem syn cnt p := by
  by_cases heol : mem p = tcpoptEOL
  · exact .inl heol
  by_cases hnop : mem p = tcpoptNOP
  · exact .inr (.inl hnop)
  have hlen : p + 1 < cnt := hreads _ (mem_optionReads.mpr (.inr (.inl ⟨heol, hnop, rfl⟩)))
  refine .inr (.inr ⟨hlen, fun hone => ?_, fun hlarge => ?_⟩)
  · -- the scan goes on behind the kind
    have hlast := (hbad ⟨heol, hnop, .inr (.inl (hone.trans_lt (by decide)))⟩).2
    have hlen' : optlen mem p = 1 := (optlen_eq hnop).trans hone
    have hgo : optionStop mem p = false := decide_eq_false (not_or.mpr ⟨heol, by omega⟩)
    have hle := hlast _ (hp.next hgo (by omega))
    omega
  · exact (hbad ⟨heol, hnop, .inr (.inr hlarge)⟩).1

theorem OptionOk.reads_lt (h : OptionOk mem syn cnt p) (hp : p < cnt) (hx : x ∈ optionReads mem syn p) : x < cnt := by
  rcases mem_optionReads.mp hx with rfl | ⟨heol, hnop, rfl⟩ | ⟨hused, _, hlt⟩
  · exact hp
  · exact ((h.resolve_left heol).resolve_left hnop).1
  · obtain ⟨heol, hnop, _⟩ := optionUsed_spec hused
    obtain ⟨_, _, hlarge⟩ := (h.resolve_left heol).resolve_left hnop
    rw [hused, ← optlen_eq hnop] at hlarge
    by_contra hge
    exact absurd (hlarge (by omega)) (by simp)

theorem OptionOk.of_bad (h : OptionOk mem syn cnt p) (hbad : BadOption mem cnt p) :
    optionUsed mem syn p = false ∧ (optionStop mem p = true ∨ cnt ≤ p + optlen mem p) := by
  obtain ⟨heol, hnop, hbad⟩ := hbad
  obtain ⟨hlt, hone, hlarge⟩ := (h.resolve_left heol).resolve_left hnop
  rw [← optlen_eq hnop] at hbad hone hlarge
  by_cases hbig : cnt < p + optlen mem p
  · exact ⟨hlarge hbig, .inr hbig.le⟩
  · have hzero : optlen mem p = 0 := by omega
    refine ⟨?_, .inl (decide_eq_true (.inr hzero))⟩
    rw [← Bool.not_eq_true]
    intro hused
    have := (optionUsed_spec hused).2.2
    omega

end

/-! ## Main results -/

/-- Three `TCPOPT_NOP` and the kind of a time stamp; its length and the stamp are taken from the data. -/
def cutTimestamp (p : ℕ) : Byte := [1, 1, 1, 8, 10].getD p 0

end Shaunos.Net
