import Mathlib
import Shaunos.Net.IpOptions

/-!
# The options of a fragment

Reference: `Kernel/netinet/ip_output.c` (`ip_optcopy`).

The first fragment keeps all options of a packet; the other ones get those that are marked to be copied. An option is
copied to `dp`, but it is `cp` that is moved on, a second time, and not `dp`: what is copied is overwritten, and the
walk comes out of step. Besides, an option of length 0 is walked over for ever, and for an option of which only the
first byte is there the length is read behind the options.

* `optcopy_plain` — options of which none is to be copied;
* `optcopyLoop_stuck`, `optcopyLoop_not_plain` — what goes wrong with others;
* `optcopyRight_iff` — the options that are copied as they should be.
-/

namespace Shaunos.Net

/-! ## The code -/

/-- `IPOPT_COPIED`. -/
def ipoptCopied (opt : Byte) : Bool := opt.getLsbD 7

/-- The variables of `ip_optcopy`. Places are counted from the headers on. -/
structure Optcopy where
  /-- The header of the fragment, with what is behind it. -/
  mem : ℕ → Byte
  cp : ℕ
  dp : ℕ
  cnt : ℕ
  /-- What was read of the packet: places, each with a number of bytes. No code reads this. -/
  reads : List (ℕ × ℕ)

/-- `memcpy` of bytes of the packet `ip`. -/
def Optcopy.memcpy (s : Optcopy) (ip : ℕ → Byte) (n : ℕ) : Optcopy :=
  { s with
    mem := fun a => if s.dp ≤ a ∧ a < s.dp + n then ip (s.cp + (a - s.dp)) else s.mem a
    reads := (s.cp, n) :: s.reads }

/-- The loop of `ip_optcopy`, with at most `fuel` options. -/
def optcopyLoop (ip : ℕ → Byte) : (fuel : ℕ) → Optcopy → Option Optcopy
  | 0, _ => none
  | fuel + 1, s =>
      if s.cnt = 0 then some s
      else
        let opt := ip s.cp
        let s := { s with reads := (s.cp, 1) :: s.reads }
        if opt = ipoptEOL then some s
        else if opt = ipoptNOP then
          optcopyLoop ip fuel
            { s with mem := Function.update s.mem s.dp ipoptNOP, dp := s.dp + 1, cnt := s.cnt - 1, cp := s.cp + 1 }
        else
          let optlen := (ip (s.cp + ipoptOLEN)).toNat
          let s := { s with reads := (s.cp + ipoptOLEN, 1) :: s.reads }
          let optlen := if s.cnt < optlen then s.cnt else optlen
          let s := if ipoptCopied opt then { s.memcpy ip optlen with cp := s.cp + optlen } else s
          optcopyLoop ip fuel { s with cnt := s.cnt - optlen, cp := s.cp + optlen }

/-- The last loop: up to three more bytes. -/
def optcopyPad : ℕ → (mem : ℕ → Byte) → (dp : ℕ) → (ℕ → Byte) × ℕ
  | 0, mem, dp => (mem, dp)
  | turns + 1, mem, dp =>
      if (dp - sizeofIp) &&& 3 ≠ 0 then optcopyPad turns (Function.update mem dp ipoptEOL) (dp + 1) else (mem, dp)

/-- `ip_optcopy`: what it returns, the fragment, and what was read. -/
def ipOptcopy (ip : ℕ → Byte) (ipHl : BitVec 4) (jp : ℕ → Byte) (fuel : ℕ) : Option (ℕ × (ℕ → Byte) × List (ℕ × ℕ)) :=
  (optcopyLoop ip fuel ⟨jp, sizeofIp, sizeofIp, 4 * ipHl.toNat - sizeofIp, []⟩).map fun s =>
    let (mem, dp) := optcopyPad 3 s.mem s.dp
    (dp - sizeofIp, mem, s.reads)

/-! ## What should happen -/

/-- The options that are to be copied, one behind the other. What is not there of an option is not copied. -/
def copiedOptions : List Byte → List Byte
  | [] => []
  | [opt] => if opt = ipoptNOP then [ipoptNOP] else []
  | opt :: len :: rest =>
      if opt = ipoptEOL then []
      else if opt = ipoptNOP then ipoptNOP :: copiedOptions (len :: rest)
      else if _h : len = 0 then []
      else
        (if ipoptCopied opt then (opt :: len :: rest).take len.toNat else []) ++
          copiedOptions ((opt :: len :: rest).drop len.toNat)
termination_by opts => opts.length
decreasing_by
  · simp
  · have hpos : len.toNat ≠ 0 := fun hz => _h (BitVec.eq_of_toNat_eq hz)
    rw [List.length_drop, List.length_cons]
    omega

/-- Padded to a multiple of four bytes. -/
def padOptions (opts : List Byte) : List Byte := opts ++ List.replicate ((4 - opts.length % 4) % 4) ipoptEOL

/-- The option area of a packet. -/
def optionArea (ip : ℕ → Byte) (ipHl : BitVec 4) : List Byte :=
  (List.range (4 * ipHl.toNat - sizeofIp)).map fun i => ip (sizeofIp + i)

/-- The function returns, reads nothing outside of the options, and writes what it should and nothing else. -/
def OptcopyRight (ip : ℕ → Byte) (ipHl : BitVec 4) (jp : ℕ → Byte) : Prop :=
  let opts := padOptions (copiedOptions (optionArea ip ipHl))
  ∃ fuel len mem reads, ipOptcopy ip ipHl jp fuel = some (len, mem, reads) ∧
    (∀ x ∈ reads, InOptions (sizeofIp + (optionArea ip ipHl).length) x) ∧
    len = opts.length ∧ len ≤ (optionArea ip ipHl).length ∧
    ∀ a, mem a = if sizeofIp ≤ a ∧ a < sizeofIp + len then opts.getD (a - sizeofIp) 0 else jp a

/-- No option is to be copied, and all options have a length. -/
def OptionsPlain : List Byte → Prop
  | [] => True
  | [opt] => opt = ipoptEOL ∨ opt = ipoptNOP
  | opt :: len :: rest =>
      if opt = ipoptEOL then True
      else if opt = ipoptNOP then OptionsPlain (len :: rest)
      else if _h : len = 0 then False
      else ipoptCopied opt = false ∧ OptionsPlain ((opt :: len :: rest).drop len.toNat)
termination_by opts => opts.length
decreasing_by
  · simp
  · have hpos : len.toNat ≠ 0 := fun hz => _h (BitVec.eq_of_toNat_eq hz)
    rw [List.length_drop, List.length_cons]
    omega

section

variable {ip jp mem : ℕ → Byte} {ipHl : BitVec 4} {p n a e dp fuel : ℕ} {s r : Optcopy}

/-! ## The bytes of the options -/

/-- `n` bytes of the packet. -/
def area (ip : ℕ → Byte) (p n : ℕ) : List Byte := (List.range n).map fun i => ip (p + i)

/-- The length of an option, of which there are `n` bytes. -/
def clampLen (ip : ℕ → Byte) (p n : ℕ) : ℕ :=
  if n < (ip (p + ipoptOLEN)).toNat then n else (ip (p + ipoptOLEN)).toNat

theorem area_zero (ip : ℕ → Byte) (p : ℕ) : area ip p 0 = [] := rfl

theorem area_succ (ip : ℕ → Byte) (p n : ℕ) : area ip p (n + 1) = ip p :: area ip (p + 1) n := by
  rw [area, area, List.range_succ_eq_map, List.map_cons, List.map_map, Nat.add_zero]
  congr 2
  funext i
  exact congrArg ip (by omega)

theorem length_area (ip : ℕ → Byte) (p n : ℕ) : (area ip p n).length = n := by
  rw [area, List.length_map, List.length_range]

theorem area_getD {i : ℕ} (h : i < n) (b : Byte) : (area ip p n).getD i b = ip (p + i) := by
  rw [List.getD_eq_getElem _ _ (by rwa [length_area])]
  simp [area]

theorem drop_area (ip : ℕ → Byte) (p n k : ℕ) : (area ip p n).drop k = area ip (p + k) (n - k) := by
  induction k generalizing p n with
  | zero => rfl
  | succ k ih =>
      cases n with
      | zero => rw [area_zero, List.drop_nil, Nat.zero_sub, area_zero]
      | succ n =>
          rw [area_succ, List.drop_succ_cons, ih, Nat.succ_sub_succ]
          congr 1
          omega

/-- Behind an option, as far as it is there. -/
theorem drop_area_len (ip : ℕ → Byte) (p n : ℕ) :
    (area ip p n).drop (ip (p + ipoptOLEN)).toNat = area ip (p + clampLen ip p n) (n - clampLen ip p n) := by
  rw [clampLen]
  split_ifs with h
  · rw [Nat.sub_self, area_zero]
    exact List.drop_eq_nil_of_le (by rw [length_area]; omega)
  · exact drop_area ip p n _

theorem clampLen_le (ip : ℕ → Byte) (p n : ℕ) : clampLen ip p n ≤ n := by
  rw [clampLen]
  split_ifs <;> omega

theorem clampLen_pos (hn : 0 < n) (hlen : ip (p + ipoptOLEN) ≠ 0) : 0 < clampLen ip p n := by
  have hpos : (ip (p + ipoptOLEN)).toNat ≠ 0 := fun hz => hlen (BitVec.eq_of_toNat_eq hz)
  rw [clampLen]
  split_ifs <;> omega

theorem nop_ne_eol : ipoptNOP ≠ ipoptEOL := by decide

theorem area_two (ip : ℕ → Byte) (p n : ℕ) :
    area ip p (n + 2) = ip p :: ip (p + ipoptOLEN) :: area ip (p + 2) n := by
  rw [area_succ, area_succ]
  rfl

theorem optionsPlain_one (opt : Byte) : OptionsPlain [opt] ↔ opt = ipoptEOL ∨ opt = ipoptNOP := by
  rw [OptionsPlain]

theorem copiedOptions_one (opt : Byte) : copiedOptions [opt] = if opt = ipoptNOP then [ipoptNOP] else [] := by
  rw [copiedOptions]

/-- The options from a place on are plain. -/
theorem optionsPlain_area (hn : 0 < n) :
    OptionsPlain (area ip p n) ↔
      if ip p = ipoptEOL then True
      else if ip p = ipoptNOP then OptionsPlain (area ip (p + 1) (n - 1))
      else 2 ≤ n ∧ ip (p + ipoptOLEN) ≠ 0 ∧ ipoptCopied (ip p) = false ∧
          OptionsPlain (area ip (p + clampLen ip p n) (n - clampLen ip p n)) := by
  rw [← drop_area_len]
  obtain _ | _ | n := n
  · omega
  · rw [area_succ, area_zero, optionsPlain_one]
    by_cases heol : ip p = ipoptEOL
    · rw [if_pos heol]
      exact iff_of_true (Or.inl heol) trivial
    rw [if_neg heol]
    by_cases hnop : ip p = ipoptNOP
    · rw [if_pos hnop, OptionsPlain]
      exact iff_of_true (Or.inr hnop) trivial
    rw [if_neg hnop]
    refine iff_of_false (not_or.mpr ⟨heol, hnop⟩) fun h => ?_
    omega
  · rw [area_two, OptionsPlain]
    by_cases heol : ip p = ipoptEOL
    · rw [if_pos heol, if_pos heol]
    rw [if_neg heol, if_neg heol]
    by_cases hnop : ip p = ipoptNOP
    · rw [if_pos hnop, if_pos hnop, Nat.add_sub_cancel (n + 1) 1, area_succ]
      exact Iff.rfl
    rw [if_neg hnop, if_neg hnop]
    by_cases hlen : ip (p + ipoptOLEN) = 0
    · rw [dif_pos hlen]
      exact iff_of_false id fun h => h.2.1 hlen
    · rw [dif_neg hlen]
      exact ⟨fun h => ⟨by omega, hlen, h⟩, fun h => h.2.2⟩

/-- The options to be copied, from a place on. -/
theorem copiedOptions_area (hn : 0 < n) :
    copiedOptions (area ip p n) =
      if ip p = ipoptEOL then []
      else if ip p = ipoptNOP then ipoptNOP :: copiedOptions (area ip (p + 1) (n - 1))
      else if n = 1 ∨ ip (p + ipoptOLEN) = 0 then []
      else
        (if ipoptCopied (ip p) then (area ip p n).take (ip (p + ipoptOLEN)).toNat else []) ++
          copiedOptions (area ip (p + clampLen ip p n) (n - clampLen ip p n)) := by
  rw [← drop_area_len]
  obtain _ | _ | n := n
  · omega
  · rw [area_succ, area_zero, copiedOptions_one]
    by_cases heol : ip p = ipoptEOL
    · rw [if_pos heol, if_neg fun hnop => nop_ne_eol (hnop.symm.trans heol)]
    rw [if_neg heol]
    by_cases hnop : ip p = ipoptNOP
    · rw [if_pos hnop, if_pos hnop, copiedOptions]
    rw [if_neg hnop, if_neg hnop, if_pos (Or.inl rfl)]
  · rw [area_two, copiedOptions]
    by_cases heol : ip p = ipoptEOL
    · rw [if_pos heol, if_pos heol]
    rw [if_neg heol, if_neg heol]
    by_cases hnop : ip p = ipoptNOP
    · rw [if_pos hnop, if_pos hnop, Nat.add_sub_cancel (n + 1) 1, area_succ]
      rfl
    rw [if_neg hnop, if_neg hnop]
    by_cases hlen : ip (p + ipoptOLEN) = 0
    · rw [dif_pos hlen, if_pos (Or.inr hlen)]
    · rw [dif_neg hlen, if_neg (not_or.mpr ⟨by omega, hlen⟩)]

theorem length_copiedOptions_le (n : ℕ) : (copiedOptions (area ip p n)).length ≤ n := by
  induction n using Nat.strong_induction_on generalizing p with
  | _ n ih =>
      obtain rfl | hn := Nat.eq_zero_or_pos n
      · rw [area_zero, copiedOptions, List.length_nil]
      rw [copiedOptions_area hn]
      split_ifs with heol hnop hend hcopied
      · rw [List.length_nil]
        omega
      · have hrest := ih (n - 1) (by omega) (p := p + 1)
        rw [List.length_cons]
        omega
      · rw [List.length_nil]
        omega
      · have hpos := clampLen_pos hn fun hz => hend (Or.inr hz)
        have hle := clampLen_le ip p n
        have hrest := ih (n - clampLen ip p n) (by omega) (p := p + clampLen ip p n)
        have htake : ((area ip p n).take (ip (p + ipoptOLEN)).toNat).length = clampLen ip p n := by
          rw [List.length_take, length_area, clampLen]
          split_ifs <;> omega
        rw [List.length_append, htake]
        omega
      · have hpos := clampLen_pos hn fun hz => hend (Or.inr hz)
        have hle := clampLen_le ip p n
        have hrest := ih (n - clampLen ip p n) (by omega) (p := p + clampLen ip p n)
        rw [List.length_append, List.length_nil]
        omega

/-! ## The last loop -/

theorem optcopyPad_eq {m : ℕ → Byte} (h : sizeofIp ≤ dp) :
    (optcopyPad 3 m dp).2 = dp + (4 - (dp - sizeofIp) % 4) % 4 ∧
      ∀ a, (optcopyPad 3 m dp).1 a = if dp ≤ a ∧ a < dp + (4 - (dp - sizeofIp) % 4) % 4 then ipoptEOL else m a := by
  have hand (k : ℕ) : (k &&& 3) = k % 4 := Nat.and_two_pow_sub_one_eq_mod k 2
  obtain ⟨k, rfl⟩ := Nat.exists_eq_add_of_le h
  have h0 : sizeofIp + k - sizeofIp = k := by omega
  have h1 : sizeofIp + k + 1 - sizeofIp = k + 1 := by omega
  have h2 : sizeofIp + k + 1 + 1 - sizeofIp = k + 2 := by omega
  simp only [optcopyPad, hand, h0, h1, h2]
  have hcases : k % 4 = 0 ∨ k % 4 = 1 ∨ k % 4 = 2 ∨ k % 4 = 3 := by omega
  rcases hcases with hk | hk | hk | hk
  · rw [if_neg (by omega), hk]
    refine ⟨rfl, fun a => ?_⟩
    rw [if_neg (by omega)]
  · rw [if_pos (by omega), if_pos (by omega), if_pos (by omega), hk]
    refine ⟨rfl, fun a => ?_⟩
    simp only [Function.update_apply]
    split_ifs <;> first | rfl | omega
  · rw [if_pos (by omega), if_pos (by omega), if_neg (by omega), hk]
    refine ⟨rfl, fun a => ?_⟩
    simp only [Function.update_apply]
    split_ifs <;> first | rfl | omega
  · rw [if_pos (by omega), if_neg (by omega), hk]
    refine ⟨rfl, fun a => ?_⟩
    simp only [Function.update_apply]
    split_ifs <;> first | rfl | omega

theorem length_padOptions (opts : List Byte) :
    (padOptions opts).length = opts.length + (4 - opts.length % 4) % 4 := by
  rw [padOptions, List.length_append, List.length_replicate]

theorem padOptions_getD (opts : List Byte) (i : ℕ) : (padOptions opts).getD i 0 = opts.getD i 0 := by
  rcases lt_or_ge i opts.length with hi | hi
  · exact List.getD_append _ _ _ _ hi
  · rw [padOptions, List.getD_append_right _ _ _ _ hi, List.getD_eq_default _ _ hi]
    rw [List.getD_eq_getElem?_getD, List.getElem?_replicate]
    split_ifs <;> rfl

/-! ## One turn of the loop -/

/-- Behind an option that is neither `IPOPT_EOL` nor `IPOPT_NOP`. -/
def Optcopy.afterOption (s : Optcopy) (ip : ℕ → Byte) : Optcopy :=
  let n := clampLen ip s.cp s.cnt
  let s := { s with reads := (s.cp + ipoptOLEN, 1) :: (s.cp, 1) :: s.reads }
  let s := if ipoptCopied (ip s.cp) then { s.memcpy ip n with cp := s.cp + n } else s
  { s with cnt := s.cnt - n, cp := s.cp + n }

theorem optcopyLoop_option (hcnt : s.cnt ≠ 0) (heol : ip s.cp ≠ ipoptEOL) (hnop : ip s.cp ≠ ipoptNOP) (fuel : ℕ) :
    optcopyLoop ip (fuel + 1) s = optcopyLoop ip fuel (s.afterOption ip) := by
  rw [optcopyLoop, if_neg hcnt]
  dsimp only
  rw [if_neg heol, if_neg hnop]
  rfl

theorem afterOption_of_plain (h : ipoptCopied (ip s.cp) = false) :
    s.afterOption ip = { s with
      cnt := s.cnt - clampLen ip s.cp s.cnt, cp := s.cp + clampLen ip s.cp s.cnt
      reads := (s.cp + ipoptOLEN, 1) :: (s.cp, 1) :: s.reads } := by
  rw [Optcopy.afterOption]
  dsimp only
  rw [if_neg (by rw [h]; decide)]

/-- Behind a `IPOPT_NOP`. -/
def Optcopy.afterNop (s : Optcopy) : Optcopy :=
  { s with
    mem := Function.update s.mem s.dp ipoptNOP, dp := s.dp + 1, cnt := s.cnt - 1, cp := s.cp + 1
    reads := (s.cp, 1) :: s.reads }

theorem optcopyLoop_nop (hcnt : s.cnt ≠ 0) (hnop : ip s.cp = ipoptNOP) (fuel : ℕ) :
    optcopyLoop ip (fuel + 1) s = optcopyLoop ip fuel s.afterNop := by
  rw [optcopyLoop, if_neg hcnt]
  dsimp only
  rw [if_neg (by rw [hnop]; decide), if_pos hnop]
  rfl

theorem optcopyLoop_eol (hcnt : s.cnt ≠ 0) (heol : ip s.cp = ipoptEOL) (fuel : ℕ) :
    optcopyLoop ip (fuel + 1) s = some { s with reads := (s.cp, 1) :: s.reads } := by
  rw [optcopyLoop, if_neg hcnt]
  exact if_pos heol

theorem optcopyLoop_done (hcnt : s.cnt = 0) (fuel : ℕ) : optcopyLoop ip (fuel + 1) s = some s := by
  rw [optcopyLoop, if_pos hcnt]

/-! ## Options that are plain -/

/-- The walk over plain options is in step, and copies what it should. -/
theorem optcopyLoop_plain (hplain : OptionsPlain (area ip s.cp s.cnt)) (hfuel : s.cnt < fuel) (hcp : sizeofIp ≤ s.cp)
    (he : s.cp + s.cnt = e) (hreads : ∀ x ∈ s.reads, InOptions e x) :
    ∃ r, optcopyLoop ip fuel s = some r ∧ r.dp = s.dp + (copiedOptions (area ip s.cp s.cnt)).length ∧
      (∀ x ∈ r.reads, InOptions e x) ∧
      ∀ a, r.mem a = if s.dp ≤ a ∧ a < r.dp then (copiedOptions (area ip s.cp s.cnt)).getD (a - s.dp) 0 else s.mem a := by
  induction fuel generalizing s with
  | zero => exact absurd hfuel (Nat.not_lt_zero _)
  | succ fuel ih =>
      by_cases hcnt : s.cnt = 0
      · rw [optcopyLoop_done hcnt, hcnt, area_zero, copiedOptions]
        refine ⟨s, rfl, rfl, hreads, fun a => ?_⟩
        rw [if_neg (by omega)]
      have hn : 0 < s.cnt := Nat.pos_of_ne_zero hcnt
      have hfirst : ∀ x ∈ (s.cp, 1) :: s.reads, InOptions e x :=
        List.forall_mem_cons.mpr ⟨⟨hcp, by dsimp only; omega⟩, hreads⟩
      rw [optionsPlain_area hn] at hplain
      rw [copiedOptions_area hn]
      by_cases heol : ip s.cp = ipoptEOL
      · rw [optcopyLoop_eol hcnt heol, if_pos heol]
        refine ⟨_, rfl, rfl, hfirst, fun a => ?_⟩
        rw [if_neg (by dsimp only; omega)]
      rw [if_neg heol] at hplain ⊢
      by_cases hnop : ip s.cp = ipoptNOP
      · rw [if_pos hnop] at hplain ⊢
        rw [optcopyLoop_nop hcnt hnop]
        have hcnt' : s.afterNop.cnt = s.cnt - 1 := rfl
        have hcp' : s.afterNop.cp = s.cp + 1 := rfl
        obtain ⟨r, hr, hdp, hrd, hmem⟩ := ih (s := s.afterNop) hplain (by omega) (by omega) (by omega) hfirst
        refine ⟨r, hr, ?_, hrd, fun a => ?_⟩
        · rw [hdp, List.length_cons]
          change s.dp + 1 + _ = _
          rw [hcp', hcnt']
          omega
        rw [hmem]
        change (if s.dp + 1 ≤ a ∧ a < r.dp then
            (copiedOptions (area ip (s.cp + 1) (s.cnt - 1))).getD (a - (s.dp + 1)) 0
          else Function.update s.mem s.dp ipoptNOP a) = _
        have hle : s.dp + 1 ≤ r.dp := by
          rw [hdp]
          exact Nat.le_add_right _ _
        rcases lt_trichotomy a s.dp with ha | rfl | ha
        · rw [if_neg (by omega), if_neg (by omega), Function.update_of_ne (by omega)]
        · rw [if_neg (by omega), if_pos (by omega), Function.update_self, Nat.sub_self, List.getD_cons_zero]
        · obtain ⟨k, rfl⟩ := Nat.exists_eq_add_of_lt ha
          have hidx : s.dp + k + 1 - s.dp = k + 1 := by omega
          have hidx' : s.dp + k + 1 - (s.dp + 1) = k := by omega
          rw [Function.update_of_ne (by omega), hidx, hidx', List.getD_cons_succ]
          split_ifs <;> first | rfl | omega
      rw [if_neg hnop] at hplain ⊢
      obtain ⟨htwo, hlen, hcopied, hrest⟩ := hplain
      have hpos := clampLen_pos hn hlen
      have hle := clampLen_le ip s.cp s.cnt
      rw [optcopyLoop_option hcnt heol hnop, afterOption_of_plain hcopied, if_neg (not_or.mpr ⟨by omega, hlen⟩),
        if_neg (by rw [hcopied]; decide), List.nil_append]
      have hsecond : ∀ x ∈ (s.cp + ipoptOLEN, 1) :: (s.cp, 1) :: s.reads, InOptions e x :=
        List.forall_mem_cons.mpr ⟨⟨by dsimp only [ipoptOLEN]; omega, by dsimp only [ipoptOLEN]; omega⟩, hfirst⟩
      exact ih hrest (by dsimp only; omega) (by dsimp only; omega) (by dsimp only; omega) hsecond

/-- Plain options are copied as they should be. -/
theorem optcopy_plain (hplain : OptionsPlain (optionArea ip ipHl)) : OptcopyRight ip ipHl jp := by
  have hlen : (optionArea ip ipHl).length = 4 * ipHl.toNat - sizeofIp := length_area ip sizeofIp _
  let start : Optcopy := ⟨jp, sizeofIp, sizeofIp, 4 * ipHl.toNat - sizeofIp, []⟩
  have hend : start.cp + start.cnt = sizeofIp + (optionArea ip ipHl).length := by rw [hlen]
  have hstart : start.cnt < 4 * ipHl.toNat + 1 := by dsimp only [start]; omega
  have hplain' : OptionsPlain (area ip start.cp start.cnt) := hplain
  obtain ⟨r, hr, hdp, hreads, hmem⟩ :=
    optcopyLoop_plain hplain' hstart le_rfl hend (fun x hx => absurd hx List.not_mem_nil)
  change r.dp = sizeofIp + (copiedOptions (optionArea ip ipHl)).length at hdp
  have hle : (copiedOptions (optionArea ip ipHl)).length ≤ 4 * ipHl.toNat - sizeofIp := length_copiedOptions_le _
  have hge : sizeofIp ≤ r.dp := by omega
  have ⟨hpad, hpadmem⟩ := optcopyPad_eq (m := r.mem) hge
  have hret : (optcopyPad 3 r.mem r.dp).2 - sizeofIp = (padOptions (copiedOptions (optionArea ip ipHl))).length := by
    rw [length_padOptions, hpad, hdp, Nat.add_sub_cancel_left]
    omega
  have hres : ipOptcopy ip ipHl jp (4 * ipHl.toNat + 1) =
      some ((optcopyPad 3 r.mem r.dp).2 - sizeofIp, (optcopyPad 3 r.mem r.dp).1, r.reads) := by
    rw [ipOptcopy, hr]
    rfl
  refine ⟨_, _, _, _, hres, hreads, hret, ?_, fun a => ?_⟩
  · have hsize : sizeofIp = 20 := rfl
    rw [hret, length_padOptions, hlen]
    omega
  · rw [hret, padOptions_getD, length_padOptions, hpadmem, hmem, hdp, Nat.add_sub_cancel_left]
    have hout : sizeofIp + (copiedOptions (optionArea ip ipHl)).length ≤ a →
        (copiedOptions (optionArea ip ipHl)).getD (a - sizeofIp) 0 = ipoptEOL := by
      intro ha
      exact List.getD_eq_default _ _ (by omega)
    change (if _ then ipoptEOL else if sizeofIp ≤ a ∧ _ then
      (copiedOptions (optionArea ip ipHl)).getD (a - sizeofIp) 0 else jp a) = _
    split_ifs <;> first | rfl | omega | exact (hout (by omega)).symm

/-! ## Other options -/

/-- An option of length 0 is walked over for ever. -/
theorem optcopyLoop_stuck (hcnt : s.cnt ≠ 0) (heol : ip s.cp ≠ ipoptEOL) (hnop : ip s.cp ≠ ipoptNOP)
    (hlen : ip (s.cp + ipoptOLEN) = 0) (fuel : ℕ) : optcopyLoop ip fuel s = none := by
  induction fuel generalizing s with
  | zero => rfl
  | succ fuel ih =>
      have hzero : clampLen ip s.cp s.cnt = 0 := by
        rw [clampLen, hlen]
        exact if_neg (Nat.not_lt_zero _)
      have hcp : (s.afterOption ip).cp = s.cp := by
        rw [Optcopy.afterOption, hzero]
        dsimp only
        split_ifs <;> rfl
      have hcnt' : (s.afterOption ip).cnt = s.cnt := by
        rw [Optcopy.afterOption, hzero]
        dsimp only
        split_ifs <;> rfl
      rw [optcopyLoop_option hcnt heol hnop]
      refine ih ?_ ?_ ?_ ?_
      · rwa [hcnt']
      · rwa [hcp]
      · rwa [hcp]
      · rwa [hcp]

/-- An option has been copied to `d`, and `dp` is still there; or a `IPOPT_NOP` has come over it. -/
def Overwritten (d : ℕ) (s : Optcopy) : Prop := s.dp = d ∨ (d < s.dp ∧ s.mem d = ipoptNOP)

theorem Overwritten.afterNop {d : ℕ} (h : Overwritten d s) : Overwritten d s.afterNop := by
  rcases h with rfl | ⟨hlt, hmem⟩
  · exact Or.inr ⟨Nat.lt_succ_self _, Function.update_self _ _ _⟩
  · exact Or.inr ⟨Nat.lt_succ_of_lt hlt, (Function.update_of_ne (by omega) _ _).trans hmem⟩

theorem Overwritten.afterOption {d : ℕ} (h : Overwritten d s) : Overwritten d (s.afterOption ip) := by
  rw [Optcopy.afterOption]
  dsimp only
  split_ifs with hcopied
  · rcases h with hdp | ⟨hlt, hmem⟩
    · exact Or.inl hdp
    · refine Or.inr ⟨hlt, ?_⟩
      change (if s.dp ≤ d ∧ d < s.dp + clampLen ip s.cp s.cnt then _ else s.mem d) = ipoptNOP
      rw [if_neg (by omega)]
      exact hmem
  · exact h

theorem Overwritten.loop {d : ℕ} (h : Overwritten d s) (hr : optcopyLoop ip fuel s = some r) : Overwritten d r := by
  induction fuel generalizing s with
  | zero => cases hr
  | succ fuel ih =>
      by_cases hcnt : s.cnt = 0
      · rw [optcopyLoop_done hcnt] at hr
        obtain rfl := Option.some.inj hr
        exact h
      by_cases heol : ip s.cp = ipoptEOL
      · rw [optcopyLoop_eol hcnt heol] at hr
        obtain rfl := Option.some.inj hr
        exact h
      by_cases hnop : ip s.cp = ipoptNOP
      · rw [optcopyLoop_nop hcnt hnop] at hr
        exact ih h.afterNop hr
      · rw [optcopyLoop_option hcnt heol hnop] at hr
        exact ih h.afterOption hr

theorem reads_loop {x : ℕ × ℕ} (hx : x ∈ s.reads) (hr : optcopyLoop ip fuel s = some r) : x ∈ r.reads := by
  induction fuel generalizing s with
  | zero => cases hr
  | succ fuel ih =>
      by_cases hcnt : s.cnt = 0
      · rw [optcopyLoop_done hcnt] at hr
        obtain rfl := Option.some.inj hr
        exact hx
      by_cases heol : ip s.cp = ipoptEOL
      · rw [optcopyLoop_eol hcnt heol] at hr
        obtain rfl := Option.some.inj hr
        exact List.mem_cons_of_mem _ hx
      by_cases hnop : ip s.cp = ipoptNOP
      · rw [optcopyLoop_nop hcnt hnop] at hr
        exact ih (List.mem_cons_of_mem _ hx) hr
      · rw [optcopyLoop_option hcnt heol hnop] at hr
        refine ih ?_ hr
        rw [Optcopy.afterOption]
        dsimp only
        split_ifs
        · exact List.mem_cons_of_mem _ (List.mem_cons_of_mem _ (List.mem_cons_of_mem _ hx))
        · exact List.mem_cons_of_mem _ (List.mem_cons_of_mem _ hx)

/-- What comes of options that are not plain: the length of the last one is read behind the options, or one that is
to be copied is overwritten. -/
theorem optcopyLoop_not_plain (hplain : ¬ OptionsPlain (area ip s.cp s.cnt)) (he : s.cp + s.cnt = e)
    (hr : optcopyLoop ip fuel s = some r) :
    (e, 1) ∈ r.reads ∨ ∃ i, i < (copiedOptions (area ip s.cp s.cnt)).length ∧
      ipoptCopied ((copiedOptions (area ip s.cp s.cnt)).getD i 0) = true ∧ Overwritten (s.dp + i) r := by
  induction fuel generalizing s with
  | zero => cases hr
  | succ fuel ih =>
      by_cases hcnt : s.cnt = 0
      · rw [hcnt, area_zero, OptionsPlain] at hplain
        exact absurd trivial hplain
      have hn : 0 < s.cnt := Nat.pos_of_ne_zero hcnt
      rw [optionsPlain_area hn] at hplain
      rw [copiedOptions_area hn]
      by_cases heol : ip s.cp = ipoptEOL
      · rw [if_pos heol] at hplain
        exact absurd trivial hplain
      rw [if_neg heol] at hplain ⊢
      by_cases hnop : ip s.cp = ipoptNOP
      · rw [if_pos hnop] at hplain ⊢
        rw [optcopyLoop_nop hcnt hnop] at hr
        rcases ih (s := s.afterNop) hplain (by change s.cp + 1 + (s.cnt - 1) = e; omega) hr with hread | ⟨i, hi, hc, ho⟩
        · exact Or.inl hread
        · refine Or.inr ⟨i + 1, Nat.succ_lt_succ hi, hc, ?_⟩
          have hdp : s.dp + (i + 1) = s.afterNop.dp + i := (Nat.add_right_comm s.dp i 1).symm ▸ rfl
          rwa [hdp]
      rw [if_neg hnop] at hplain ⊢
      rw [optcopyLoop_option hcnt heol hnop] at hr
      by_cases hone : s.cnt = 1
      · refine Or.inl (reads_loop ?_ hr)
        have hread : (e, 1) = (s.cp + ipoptOLEN, 1) := by rw [← he, hone, ipoptOLEN]
        rw [hread, Optcopy.afterOption]
        dsimp only
        split_ifs
        · exact List.mem_cons_of_mem _ List.mem_cons_self
        · exact List.mem_cons_self
      have hlen : ip (s.cp + ipoptOLEN) ≠ 0 := by
        intro hzero
        have hstuck := optcopyLoop_stuck hcnt heol hnop hzero (fuel + 1)
        rw [optcopyLoop_option hcnt heol hnop, hr] at hstuck
        cases hstuck
      have hpos := clampLen_pos hn hlen
      have hle := clampLen_le ip s.cp s.cnt
      rw [if_neg (not_or.mpr ⟨hone, hlen⟩)]
      cases hcopied : ipoptCopied (ip s.cp) with
      | false =>
          rw [if_neg (by decide), List.nil_append]
          have hrest : ¬ OptionsPlain (area ip (s.cp + clampLen ip s.cp s.cnt) (s.cnt - clampLen ip s.cp s.cnt)) :=
            fun h => hplain ⟨by omega, hlen, hcopied, h⟩
          rw [afterOption_of_plain hcopied] at hr
          exact ih (s := { s with
            cnt := s.cnt - clampLen ip s.cp s.cnt, cp := s.cp + clampLen ip s.cp s.cnt
            reads := (s.cp + ipoptOLEN, 1) :: (s.cp, 1) :: s.reads }) hrest (by dsimp only; omega) hr
      | true =>
          have hover : Overwritten (s.dp + 0) (s.afterOption ip) := by
            refine Or.inl ?_
            rw [Optcopy.afterOption]
            dsimp only
            rw [if_pos hcopied]
            rfl
          obtain ⟨n, hnat⟩ : ∃ n, (ip (s.cp + ipoptOLEN)).toNat = n + 1 :=
            ⟨(ip (s.cp + ipoptOLEN)).toNat - 1, by
              have hne : (ip (s.cp + ipoptOLEN)).toNat ≠ 0 := fun hz => hlen (BitVec.eq_of_toNat_eq hz)
              omega⟩
          obtain ⟨m, hm⟩ : ∃ m, s.cnt = m + 1 := ⟨s.cnt - 1, by omega⟩
          refine Or.inr ⟨0, ?_, ?_, hover.loop hr⟩
          · rw [if_pos rfl, hnat, hm, area_succ, List.take_succ_cons]
            exact Nat.succ_pos _
          · rw [if_pos rfl, hnat, hm, area_succ, List.take_succ_cons]
            exact hcopied

/-- Only plain options are copied as they should be. -/
theorem OptcopyRight.plain (h : OptcopyRight ip ipHl jp) : OptionsPlain (optionArea ip ipHl) := by
  obtain ⟨fuel, len, mem, reads, hres, hreads, hlen, -, hmem⟩ := h
  by_contra hplain
  rw [ipOptcopy] at hres
  obtain ⟨r, hr, heq⟩ := Option.map_eq_some_iff.mp hres
  have harea : (optionArea ip ipHl).length = 4 * ipHl.toNat - sizeofIp := length_area ip sizeofIp _
  have hlast := optcopyLoop_not_plain (s := ⟨jp, sizeofIp, sizeofIp, 4 * ipHl.toNat - sizeofIp, []⟩)
    (e := sizeofIp + (optionArea ip ipHl).length) hplain (by rw [harea]) hr
  obtain ⟨rfl, rfl, rfl⟩ : (optcopyPad 3 r.mem r.dp).2 - sizeofIp = len ∧ (optcopyPad 3 r.mem r.dp).1 = mem ∧
      r.reads = reads := by simpa using heq
  rcases hlast with hread | ⟨i, hi, hcopied, hover⟩
  · have hin := (hreads _ hread).2
    dsimp only at hin
    omega
  change i < (copiedOptions (optionArea ip ipHl)).length at hi
  change ipoptCopied ((copiedOptions (optionArea ip ipHl)).getD i 0) = true at hcopied
  change Overwritten (sizeofIp + i) r at hover
  have hge : sizeofIp ≤ r.dp := by
    rcases hover with hdp | ⟨hlt, _⟩ <;> omega
  have ⟨hpad, hpadmem⟩ := optcopyPad_eq (m := r.mem) hge
  rw [length_padOptions] at hlen
  have hat := hmem (sizeofIp + i)
  rw [padOptions_getD, Nat.add_sub_cancel_left, if_pos (by omega), hpadmem] at hat
  rcases hover with hdp | ⟨hlt, hnop⟩
  · -- `dp` is where the option was copied to
    have hin : sizeofIp + i < r.dp + (4 - (r.dp - sizeofIp) % 4) % 4 := by omega
    rw [if_pos ⟨hdp.le, hin⟩] at hat
    rw [← hat] at hcopied
    exact absurd hcopied (by decide)
  · rw [if_neg (by omega), hnop] at hat
    rw [← hat] at hcopied
    exact absurd hcopied (by decide)

/-- The options of a fragment are right if and only if none of the packet is to be copied and all have a length. -/
theorem optcopyRight_iff (ip : ℕ → Byte) (ipHl : BitVec 4) (jp : ℕ → Byte) :
    OptcopyRight ip ipHl jp ↔ OptionsPlain (optionArea ip ipHl) :=
  ⟨OptcopyRight.plain, optcopy_plain⟩

end

/-- A packet with a security option of four bytes, which is to be copied. -/
def securityOption (p : ℕ) : Byte := if p = 20 then 0x82 else if p = 21 then 4 else 0

/-- The option is copied, but the length that is returned is 0. -/
theorem optcopy_loses_option : ¬ ∀ ip ipHl jp, OptcopyRight ip ipHl jp := by
  intro hall
  have hplain := (hall securityOption 6 fun _ => 0).plain
  have harea : optionArea securityOption 6 = [0x82, 4, 0, 0] := rfl
  rw [harea, OptionsPlain, if_neg (by decide), if_neg (by decide), dif_neg (by decide)] at hplain
  exact absurd hplain.1 (by decide)

end Shaunos.Net
