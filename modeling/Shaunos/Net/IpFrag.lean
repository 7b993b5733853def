import Shaunos.Common.LoggedMem
import Shaunos.Net.Cksum
import Shaunos.Net.Errno

/-!
# Fragmentation

Reference: `Kernel/netinet/ip_output.c` (`ip_output`, from `sendit` on), `Include/kernel/sys/netinet/ip.h`.

The packet has a header without options, `hlen` is 20. `ip_len` says how long the packet is; the bytes that are there
are what `m_copy` and `m_adj` work on. How bytes lie in mbufs matters to `in_cksum` only, and is a parameter.

* `fragmentsRight_iff` — the packets whose fragments are right.
-/

namespace Shaunos.Net

/-! ## The code -/

def ipMF : BitVec 16 := 0x2000
def ipDF : BitVec 16 := 0x4000

/-- `struct ip`, without options. -/
structure Ip where
  ipVhl : Byte
  ipTos : Byte
  ipLen : BitVec 16
  ipId : BitVec 16
  ipOff : BitVec 16
  ipTtl : Byte
  ipP : Byte
  ipSum : BitVec 16
  ipSrc : BitVec 32
  ipDst : BitVec 32

/-- A number of 16 bits as it stands in memory. -/
def shortBytes (x : BitVec 16) : List Byte := [x.extractLsb' 0 8, x.extractLsb' 8 8]

namespace Ip

/-- The bytes before `ip_sum`. -/
def front (ip : Ip) : List Byte :=
  [ip.ipVhl, ip.ipTos] ++ shortBytes ip.ipLen ++ shortBytes ip.ipId ++ shortBytes ip.ipOff ++ [ip.ipTtl, ip.ipP]

/-- The bytes behind it. -/
def back (ip : Ip) : List Byte := wordBytes ip.ipSrc ++ wordBytes ip.ipDst

def bytes (ip : Ip) : List Byte := ip.front ++ (shortBytes ip.ipSum ++ ip.back)

end Ip

/-- `htons`. -/
def htons (x : BitVec 16) : BitVec 16 := swap16 x

/-- How bytes lie in mbufs. -/
structure Layout where
  chain : List Byte → List CksumMbuf
  bytes_chain : ∀ l, cksumBytes (chain l) = l

/-- `in_cksum (m, hlen)`. -/
def ipCksum (lay : Layout) (l : List Byte) : Option (BitVec 16) := (inCksum (lay.chain l) 20).map (BitVec.setWidth 16)

/-- A packet that is handed to the interface: the header, and the bytes behind it. -/
structure Fragment where
  ip : Ip
  data : List Byte

section

variable (lay : ℕ → Layout) (ip : Ip) (l : List Byte)

/-- `mhip->ip_off`, in host order. -/
def laterOff (off : ℕ) (last : Bool) : BitVec 16 :=
  let ipOff := BitVec.ofNat 16 ((off - 20) / 8) + (ip.ipOff &&& ~~~ipMF)
  let ipOff := if ip.ipOff &&& ipMF ≠ 0 then ipOff ||| ipMF else ipOff
  if last then ipOff else ipOff ||| ipMF

/-- The body of the loop, with all mbufs allocated. `l` is the packet. -/
def laterFragment (i off len : ℕ) : Option Fragment :=
  let ipLen := ip.ipLen.toNat
  let last : Bool := ipLen ≤ off + len
  let len := if last then ipLen - off else len
  let data := (l.drop off).take len
  let mhip := { ip with
    ipLen := htons (BitVec.ofNat 16 (len + 20)), ipOff := htons (laterOff ip off last), ipSum := 0 }
  (ipCksum (lay i) (mhip.bytes ++ data)).map fun ipSum => ⟨{ mhip with ipSum }, data⟩

/-- The loop. In the last fragment `len` becomes what is left. -/
def laterFragments : (fuel i off len : ℕ) → Option (List Fragment)
  | 0, _, _, _ => none
  | fuel + 1, i, off, len =>
      let ipLen := ip.ipLen.toNat
      if off < ipLen then do
        let x ← laterFragment lay ip l i off len
        let len := if ipLen ≤ off + len then ipLen - off else len
        let rest ← laterFragments fuel (i + 1) (off + len) len
        return x :: rest
      else some []

end

/-- The fragments of a packet with the bytes `data` behind the header. -/
def ipFragments (lay : ℕ → Layout) (ip : Ip) (data : List Byte) (firstlen : ℕ) : Option (List Fragment) := do
  let ipLen := ip.ipLen.toNat
  let rest ← laterFragments lay ip (ip.bytes ++ data) (ipLen + 1) 1 (20 + firstlen) firstlen
  let ip := { ip with
    ipLen := htons (BitVec.ofNat 16 (20 + firstlen)), ipOff := htons (ip.ipOff ||| ipMF), ipSum := 0 }
  let l := adjust (ip.bytes ++ data) (20 + firstlen - ipLen)
  let ipSum ← ipCksum (lay 0) l
  return ⟨{ ip with ipSum }, l.drop 20⟩ :: rest

/-- The loop at `sendorfree`: what `if_output` gets, until it returns an error. `ifOutput i` is what it returns for
the `i`th. -/
def sendFragments (ifOutput : ℕ → ℤ) : (i : ℕ) → (error : ℤ) → List Fragment → ℤ × List Fragment
  | _, error, [] => (error, [])
  | i, error, x :: rest =>
      if error = 0 then
        let (error, sent) := sendFragments ifOutput (i + 1) (ifOutput i) rest
        (error, x :: sent)
      else sendFragments ifOutput (i + 1) error rest

/-- `ip_output` from `sendit` on: the error, and what `if_output` gets. -/
def ipSendit (lay : ℕ → Layout) (ifOutput : ℕ → ℤ) (ip : Ip) (data : List Byte) (mtu : ℕ) :
    Option (ℤ × List Fragment) := do
  if ip.ipLen.toNat ≤ mtu then
    let ip := { ip with ipLen := htons ip.ipLen, ipOff := htons ip.ipOff, ipSum := 0 }
    let ipSum ← ipCksum (lay 0) (ip.bytes ++ data)
    return (ifOutput 0, [⟨{ ip with ipSum }, data⟩])
  else if ip.ipOff &&& ipDF ≠ 0 then return (-eMSGSIZE, [])
  else
    let len := (mtu - 20) / 8 * 8
    if len < 8 then return (-eMSGSIZE, [])
    else
      let frags ← ipFragments lay ip data len
      return sendFragments ifOutput 0 0 frags

/-! ## What should happen -/

/-- The offset, in units of eight bytes. -/
def fragOffset (ipOff : BitVec 16) : ℕ := (ipOff &&& 0x1fff).toNat

def moreFrags (ipOff : BitVec 16) : Prop := ipOff &&& ipMF ≠ 0

/-- A fragment with the bytes of `data` from `pos` on. -/
structure FragmentRight (ip : Ip) (data : List Byte) (mtu pos : ℕ) (last : Prop) (x : Fragment) : Prop where
  data_eq : x.data = (data.drop pos).take x.data.length
  offset : 8 * fragOffset (htons x.ip.ipOff) = 8 * fragOffset ip.ipOff + pos
  more : moreFrags (htons x.ip.ipOff) ↔ (last → moreFrags ip.ipOff)
  len : (htons x.ip.ipLen).toNat = 20 + x.data.length
  size : 20 + x.data.length ≤ mtu
  sum : rfc1071 x.ip.bytes = 0
  others : x.ip = { ip with ipLen := x.ip.ipLen, ipOff := x.ip.ipOff, ipSum := x.ip.ipSum }

/-- Fragments of the bytes from `pos` on, one behind the other. -/
def FragmentsTile (ip : Ip) (data : List Byte) (mtu : ℕ) : (pos : ℕ) → List Fragment → Prop
  | pos, [] => pos = data.length
  | pos, x :: rest =>
      FragmentRight ip data mtu pos (rest = []) x ∧ FragmentsTile ip data mtu (pos + x.data.length) rest

/-- The interface gets the fragments of the packet, all of them if it returns no error. -/
def FragmentsRight (lay : ℕ → Layout) (ip : Ip) (data : List Byte) (mtu : ℕ) : Prop :=
  ∀ ifOutput, ∃ error sent frags, ipSendit lay ifOutput ip data mtu = some (error, sent) ∧
    FragmentsTile ip data mtu 0 frags ∧ sent <+: frags ∧ ((∀ i, ifOutput i = 0) → error = 0 ∧ sent = frags)

/-- The packet is as long as `ip_len` says, and the offset of the last fragment has 13 bits. -/
def FragmentsOk (ip : Ip) (data : List Byte) (mtu : ℕ) : Prop :=
  20 + data.length = ip.ipLen.toNat ∧
    let len := (mtu - 20) / 8 * 8
    fragOffset ip.ipOff + (ip.ipLen.toNat - 21) / len * (len / 8) < 8192

instance (ip : Ip) (data : List Byte) (mtu : ℕ) : Decidable (FragmentsOk ip data mtu) :=
  inferInstanceAs (Decidable (_ ∧ _))

section

variable {ip : Ip} {data l : List Byte} {mtu pos n i off len fuel : ℕ} {x y : BitVec 16} {lay : ℕ → Layout}
  {frags rest : List Fragment} {f : Fragment}

/-! ## The header -/

theorem swap16_swap16 (x : BitVec 16) : swap16 (swap16 x) = x := by
  have hx := x.isLt
  rw [BitVec.toNat_eq, toNat_swap16, toNat_swap16]
  omega

theorem leNum_shortBytes (x : BitVec 16) : leNum (shortBytes x) = (x.toNat : ZMod 65535) := by
  have hx := x.isLt
  have hsplit : x.toNat = x.toNat % 256 + 256 * (x.toNat / 256) := (Nat.mod_add_div _ _).symm
  rw [shortBytes, leNum_cons, leNum_cons, leNum_nil, BitVec.extractLsb'_toNat, BitVec.extractLsb'_toNat]
  conv_rhs => rw [hsplit]
  rw [Nat.shiftRight_eq_div_pow, Nat.shiftRight_eq_div_pow, Nat.pow_zero, Nat.div_one,
    Nat.mod_eq_of_lt (show x.toNat / 2 ^ 8 < 2 ^ 8 by omega)]
  push_cast
  ring

theorem leNum_bytes (ip : Ip) : leNum ip.bytes = leNum ip.front + (ip.ipSum.toNat + leNum ip.back) := by
  have hfront : Even ip.front.length := ⟨5, rfl⟩
  have hsum : Even (shortBytes ip.ipSum).length := ⟨1, rfl⟩
  rw [Ip.bytes, leNum_append_even hfront, leNum_append_even hsum, leNum_shortBytes]

/-- A header is verified if its sum is a multiple of 65535, and not all of it is zero. -/
theorem rfc1071_eq_zero (hres : leNum l = 0) (hne : ¬ ∀ b ∈ l, b = 0) : rfc1071 l = 0 := by
  have hsum := isSum_swap_onesSum l
  rw [hres] at hsum
  have hfull : IsSum 65535 0 (∀ b ∈ l, b = 0) := ⟨by omega, rfl, iff_of_false (by omega) hne⟩
  have heq : swap16 (onesSum (beWords l)) = 65535 := BitVec.eq_of_toNat_eq (hsum.unique hfull)
  have hones : onesSum (beWords l) = 65535 := by
    rw [← swap16_swap16 (onesSum _), heq]
    rfl
  rw [rfc1071, hones]
  rfl

/-- A header with its checksum is verified. -/
theorem rfc1071_withSum (ip : Ip) (hzero : ip.ipSum = 0) (hlen : ip.ipLen ≠ 0) :
    rfc1071 { ip with ipSum := swap16 (rfc1071 ip.bytes) }.bytes = 0 := by
  have hsum := (isSum_swap_onesSum ip.bytes).residue_eq
  have hlt := (swap16 (onesSum (beWords ip.bytes))).isLt
  refine rfc1071_eq_zero ?_ fun hall => hlen ?_
  · rw [leNum_bytes, rfc1071, swap16_not, BitVec.toNat_not]
    rw [leNum_bytes, hzero] at hsum
    rw [Nat.cast_sub (by omega), Nat.cast_sub (by omega), hsum]
    show leNum ip.front + (((2 ^ 16 : ℕ) : ZMod 65535) - (1 : ℕ) - (leNum ip.front + ((0 : ℕ) + leNum ip.back)) +
      leNum ip.back) = 0
    rw [show ((2 ^ 16 : ℕ) : ZMod 65535) = 1 from rfl]
    push_cast
    ring
  · have hlow := hall (ip.ipLen.extractLsb' 0 8) (by simp [Ip.bytes, Ip.front, shortBytes])
    have hhigh := hall (ip.ipLen.extractLsb' 8 8) (by simp [Ip.bytes, Ip.front, shortBytes])
    have hswap : swap16 ip.ipLen = 0 := byteAppend_eq_zero.mpr ⟨hlow, hhigh⟩
    rw [← swap16_swap16 ip.ipLen, hswap]
    rfl

theorem ipCksum_eq (lay : Layout) (ip : Ip) (l : List Byte) :
    ipCksum lay (ip.bytes ++ l) = some (swap16 (rfc1071 ip.bytes)) := by
  have hlen : ip.bytes.length = 20 := rfl
  have hright : CksumRight (lay.chain (ip.bytes ++ l)) 20 := by
    refine cksumRight_of_fits ?_ (cksumFits_of_le (by omega))
    rw [lay.bytes_chain, List.length_append]
    omega
  rw [CksumRight, lay.bytes_chain, List.take_left' hlen] at hright
  rw [ipCksum, hright, Option.map_some, BitVec.setWidth_setWidth_of_le _ (by omega), BitVec.setWidth_eq]

/-! ## Offsets -/

theorem fragOffset_eq (x : BitVec 16) : fragOffset x = x.toNat % 8192 := by
  rw [fragOffset, BitVec.toNat_and]
  exact Nat.and_two_pow_sub_one_eq_mod x.toNat 13

theorem fragOffset_lt (x : BitVec 16) : fragOffset x < 8192 := by
  rw [fragOffset_eq]
  omega

theorem fragOffset_or (x : BitVec 16) : fragOffset (x ||| ipMF) = fragOffset x := by
  rw [fragOffset, fragOffset, BitVec.and_or_distrib_right, show ipMF &&& 0x1fff = 0#16 from rfl, BitVec.or_zero]

theorem fragOffset_clear (x : BitVec 16) : fragOffset (x &&& ~~~ipMF) = fragOffset x := by
  rw [fragOffset, fragOffset, BitVec.and_assoc, show ~~~ipMF &&& 0x1fff = 0x1fff from rfl]

theorem fragOffset_add (k : ℕ) (x : BitVec 16) : fragOffset (BitVec.ofNat 16 k + x) = (k + fragOffset x) % 8192 := by
  rw [fragOffset_eq, fragOffset_eq, BitVec.toNat_add, BitVec.toNat_ofNat]
  omega

theorem moreFrags_iff (x : BitVec 16) : moreFrags x ↔ x.toNat / 8192 % 2 = 1 := by
  have hbit : (x &&& ipMF).toNat = (x.toNat.testBit 13).toNat * 8192 := by
    rw [BitVec.toNat_and]
    exact Nat.and_two_pow x.toNat 13
  rw [moreFrags, ne_eq, BitVec.toNat_eq, hbit, Nat.testBit_eq_decide_div_mod_eq]
  simp

theorem moreFrags_or (x : BitVec 16) : moreFrags (x ||| ipMF) := by
  rw [moreFrags, BitVec.and_or_distrib_right, BitVec.and_self]
  intro h
  have hbit := congrArg (fun y => y.getLsbD 13) h
  simp [ipMF] at hbit

theorem not_moreFrags_clear (x : BitVec 16) : ¬ moreFrags (x &&& ~~~ipMF) := by
  rw [moreFrags, BitVec.and_assoc, show ~~~ipMF &&& ipMF = 0#16 from rfl, BitVec.and_zero]
  exact not_not.mpr rfl

theorem not_moreFrags_add {k : ℕ} (h : ¬ moreFrags x) (hk : k + fragOffset x < 8192) :
    ¬ moreFrags (BitVec.ofNat 16 k + x) := by
  have hx := x.isLt
  rw [moreFrags_iff] at h ⊢
  rw [fragOffset_eq] at hk
  rw [BitVec.toNat_add, BitVec.toNat_ofNat]
  omega

theorem fragOffset_laterOff (ip : Ip) (off : ℕ) (last : Bool) :
    fragOffset (laterOff ip off last) = ((off - 20) / 8 + fragOffset ip.ipOff) % 8192 := by
  rw [laterOff]
  split_ifs
  · rw [fragOffset_or, fragOffset_add, fragOffset_clear]
  · rw [fragOffset_add, fragOffset_clear]
  · rw [fragOffset_or, fragOffset_or, fragOffset_add, fragOffset_clear]
  · rw [fragOffset_or, fragOffset_add, fragOffset_clear]

theorem moreFrags_laterOff {last : Bool} (h : (off - 20) / 8 + fragOffset ip.ipOff < 8192) :
    moreFrags (laterOff ip off last) ↔ (last = true → moreFrags ip.ipOff) := by
  have hclear : ¬ moreFrags (BitVec.ofNat 16 ((off - 20) / 8) + (ip.ipOff &&& ~~~ipMF)) := by
    refine not_moreFrags_add (not_moreFrags_clear _) ?_
    rwa [fragOffset_clear]
  rw [laterOff]
  cases last with
  | false =>
      rw [if_neg Bool.false_ne_true]
      exact iff_of_true (moreFrags_or _) fun h => Bool.noConfusion h
  | true =>
      rw [if_pos rfl]
      split_ifs with hmf
      · exact iff_of_true (moreFrags_or _) fun _ => hmf
      · exact iff_of_false hclear fun hall => hmf (hall rfl)

/-! ## One fragment -/

/-- A fragment with its checksum. -/
def madeFragment (ip : Ip) (ipLen ipOff : BitVec 16) (data : List Byte) : Fragment :=
  let mhip := { ip with ipLen := htons ipLen, ipOff := htons ipOff, ipSum := 0 }
  ⟨{ mhip with ipSum := swap16 (rfc1071 mhip.bytes) }, data⟩

theorem laterFragment_eq (lay : ℕ → Layout) (ip : Ip) (l : List Byte) (i off len : ℕ) :
    let last : Bool := ip.ipLen.toNat ≤ off + len
    let left := if last then ip.ipLen.toNat - off else len
    laterFragment lay ip l i off len =
      some (madeFragment ip (BitVec.ofNat 16 (left + 20)) (laterOff ip off last) ((l.drop off).take left)) := by
  rw [laterFragment]
  dsimp only
  rw [ipCksum_eq]
  rfl

theorem madeFragment_right {last : Prop} {ipOff : BitVec 16} {d : List Byte} (hmtu : mtu < 65536)
    (hsize : 20 + d.length ≤ mtu) (hdata : d = (data.drop pos).take d.length)
    (hoff : 8 * fragOffset ipOff = 8 * fragOffset ip.ipOff + pos)
    (hmore : moreFrags ipOff ↔ (last → moreFrags ip.ipOff)) :
    FragmentRight ip data mtu pos last (madeFragment ip (BitVec.ofNat 16 (d.length + 20)) ipOff d) where
  data_eq := hdata
  offset := by
    rw [← hoff]
    exact congrArg (fun x => 8 * fragOffset x) (swap16_swap16 ipOff)
  more := by
    rw [← hmore]
    exact iff_of_eq (congrArg moreFrags (swap16_swap16 ipOff))
  len := by
    refine (congrArg BitVec.toNat (swap16_swap16 (BitVec.ofNat 16 (d.length + 20)))).trans ?_
    rw [BitVec.toNat_ofNat]
    show (d.length + 20) % 2 ^ 16 = 20 + d.length
    omega
  size := hsize
  sum := by
    refine rfc1071_withSum _ rfl fun hzero => ?_
    have hback := congrArg (fun x => (swap16 x).toNat) hzero
    dsimp only at hback
    rw [htons, swap16_swap16, BitVec.toNat_ofNat, show (swap16 0).toNat = 0 from rfl] at hback
    omega
  others := rfl

/-! ## The loop -/

theorem laterFragments_end (lay : ℕ → Layout) (ip : Ip) (l : List Byte) (fuel i off len : ℕ) (h : ip.ipLen.toNat ≤ off) :
    laterFragments lay ip l (fuel + 1) i off len = some [] := by
  rw [laterFragments]
  exact if_neg (Nat.not_lt.mpr h)

/-- The loop makes a fragment. -/
theorem laterFragments_next (lay : ℕ → Layout) (ip : Ip) (l : List Byte) (fuel i len : ℕ)
    (h : off < ip.ipLen.toNat) :
    let last : Bool := ip.ipLen.toNat ≤ off + len
    let left := if last then ip.ipLen.toNat - off else len
    laterFragments lay ip l (fuel + 1) i off len =
      (laterFragments lay ip l fuel (i + 1) (off + left) left).map
        (madeFragment ip (BitVec.ofNat 16 (left + 20)) (laterOff ip off last) ((l.drop off).take left) :: ·) := by
  intro last left
  have heq := laterFragment_eq lay ip l i off len
  dsimp only at heq
  have hleft : (if ip.ipLen.toNat ≤ off + len then ip.ipLen.toNat - off else len) = left := by
    simp [left, last]
  rw [laterFragments]
  dsimp only
  rw [if_pos h, heq, hleft]
  cases laterFragments lay ip l fuel (i + 1) (off + left) left <;> rfl

theorem drop_packet (ip : Ip) (data : List Byte) (pos : ℕ) : (ip.bytes ++ data).drop (20 + pos) = data.drop pos := by
  rw [← List.drop_drop, List.drop_left' (show ip.bytes.length = 20 from rfl)]

theorem laterFragments_tile (lay : ℕ → Layout) {j : ℕ} (hn : 20 + data.length = ip.ipLen.toNat) (hlen : 0 < len) (hdvd : 8 ∣ len)
    (hsize : 20 + len ≤ mtu) (hmtu : mtu < 65536)
    (hfits : ∀ j, j * len < data.length → fragOffset ip.ipOff + j * (len / 8) < 8192) (hj : j * len < data.length)
    (hfuel : data.length < j * len + fuel) :
    ∃ rest, laterFragments lay ip (ip.bytes ++ data) fuel i (20 + j * len) len = some rest ∧ rest ≠ [] ∧
      FragmentsTile ip data mtu (j * len) rest := by
  induction fuel generalizing i j with
  | zero => omega
  | succ fuel ih =>
      have hoff : (20 + j * len - 20) / 8 = j * (len / 8) := by
        rw [Nat.add_sub_cancel_left, Nat.mul_div_assoc _ hdvd]
      have height : 8 * (j * (len / 8)) = j * len := by
        rw [Nat.mul_left_comm, Nat.mul_div_cancel' hdvd]
      have hfit := hfits j hj
      have hlater (last : Bool) : 8 * fragOffset (laterOff ip (20 + j * len) last) =
          8 * fragOffset ip.ipOff + j * len := by
        rw [fragOffset_laterOff, hoff, Nat.mod_eq_of_lt (by omega)]
        omega
      have hmore (last : Bool) : moreFrags (laterOff ip (20 + j * len) last) ↔ (last = true → moreFrags ip.ipOff) :=
        moreFrags_laterOff (by rw [hoff]; omega)
      rw [laterFragments_next lay ip _ fuel i len (by omega), drop_packet]
      by_cases hlast : ip.ipLen.toNat ≤ 20 + j * len + len
      · -- what is left
        have hend := laterFragments_end lay ip (ip.bytes ++ data) (fuel - 1) (i + 1)
          ip.ipLen.toNat (ip.ipLen.toNat - (20 + j * len)) (Nat.le_refl _)
        rw [show fuel - 1 + 1 = fuel by omega] at hend
        have htake : ((data.drop (j * len)).take (ip.ipLen.toNat - (20 + j * len))).length =
            ip.ipLen.toNat - (20 + j * len) := by
          rw [List.length_take, List.length_drop]
          omega
        rw [decide_eq_true hlast, if_pos rfl, Nat.add_sub_cancel' (by omega), hend]
        refine ⟨_, rfl, List.cons_ne_nil _ _, ?_, ?_⟩
        · conv in BitVec.ofNat _ _ => rw [← htake]
          exact madeFragment_right hmtu (by omega) (by rw [htake]) (hlater true)
            ((hmore true).trans ⟨fun h _ => h rfl, fun h _ => h rfl⟩)
        · show j * len + ((data.drop (j * len)).take (ip.ipLen.toNat - (20 + j * len))).length = data.length
          omega
      · have hj' : (j + 1) * len < data.length := by
          rw [Nat.succ_mul]
          omega
        obtain ⟨rest, hrest, hne, htile⟩ := ih (i := i + 1) (j := j + 1) hj' (by rw [Nat.succ_mul]; omega)
        have htake : ((data.drop (j * len)).take len).length = len := by
          rw [List.length_take, List.length_drop]
          rw [Nat.succ_mul] at hj'
          omega
        rw [decide_eq_false hlast, if_neg Bool.false_ne_true, Nat.add_assoc, ← Nat.succ_mul, hrest]
        refine ⟨_, rfl, List.cons_ne_nil _ _, ?_, ?_⟩
        · conv in BitVec.ofNat _ _ => rw [← htake]
          exact madeFragment_right hmtu (by omega) (by rw [htake]) (hlater false)
            ((hmore false).trans (iff_of_true (fun h => Bool.noConfusion h) fun h => absurd h hne))
        · show FragmentsTile ip data mtu (j * len + ((data.drop (j * len)).take len).length) rest
          rwa [htake, ← Nat.succ_mul]

theorem FragmentRight.pos_lt {last : Prop} (h : FragmentRight ip data mtu pos last f) :
    8 * fragOffset ip.ipOff + pos < 65536 := by
  have hlt := fragOffset_lt (htons f.ip.ipOff)
  have hoff := h.offset
  omega

/-- The loop makes fragments whose offsets have 13 bits, if they tile. -/
theorem fits_of_laterFragments {j k : ℕ} (hn : 20 + data.length = ip.ipLen.toNat) (hdvd : 8 ∣ len)
    (hj : j * len < data.length) (hjk : j ≤ k) (hk : k * len < data.length)
    (h : laterFragments lay ip (ip.bytes ++ data) fuel i (20 + j * len) len = some rest)
    (htile : FragmentsTile ip data mtu (j * len) rest) : fragOffset ip.ipOff + k * (len / 8) < 8192 := by
  induction fuel generalizing i j rest with
  | zero => cases h
  | succ fuel ih =>
      have height : 8 * (j * (len / 8)) = j * len := by
        rw [Nat.mul_left_comm, Nat.mul_div_cancel' hdvd]
      rw [laterFragments_next lay ip _ fuel i len (by omega), drop_packet] at h
      obtain ⟨rest, hrest, rfl⟩ := Option.map_eq_some_iff.mp h
      obtain ⟨hright, htile⟩ := htile
      rcases Nat.eq_or_lt_of_le hjk with rfl | hjk
      · have hlt := hright.pos_lt
        omega
      · have hle : (j + 1) * len ≤ k * len := Nat.mul_le_mul_right len hjk
        have hnot : ¬ ip.ipLen.toNat ≤ 20 + j * len + len := by
          rw [Nat.succ_mul] at hle
          omega
        have htake : ((data.drop (j * len)).take len).length = len := by
          rw [Nat.succ_mul] at hle
          rw [List.length_take, List.length_drop]
          omega
        rw [decide_eq_false hnot, if_neg Bool.false_ne_true] at hrest htile
        rw [Nat.add_assoc, ← Nat.succ_mul] at hrest
        refine ih (lt_of_le_of_lt hle hk) hjk hrest ?_
        change FragmentsTile ip data mtu (j * len + ((data.drop (j * len)).take len).length) rest at htile
        rwa [htake, ← Nat.succ_mul] at htile

/-! ## All fragments -/

theorem sendFragments_error {ifOutput : ℕ → ℤ} {error : ℤ} (h : error ≠ 0) (i : ℕ) (frags : List Fragment) :
    sendFragments ifOutput i error frags = (error, []) := by
  induction frags generalizing i with
  | nil => rfl
  | cons x frags ih => rw [sendFragments, if_neg h, ih]

/-- What the interface gets are the first fragments. -/
theorem sendFragments_prefix (ifOutput : ℕ → ℤ) (i : ℕ) (error : ℤ) (frags : List Fragment) :
    (sendFragments ifOutput i error frags).2 <+: frags := by
  induction frags generalizing i error with
  | nil => exact List.prefix_rfl
  | cons x frags ih =>
      by_cases h : error = 0
      · rw [sendFragments, if_pos h]
        exact (List.prefix_cons_inj x).mpr (ih (i + 1) (ifOutput i))
      · rw [sendFragments_error h]
        exact List.nil_prefix

theorem sendFragments_all {ifOutput : ℕ → ℤ} (h : ∀ i, ifOutput i = 0) (i : ℕ) (frags : List Fragment) :
    sendFragments ifOutput i 0 frags = (0, frags) := by
  induction frags generalizing i with
  | nil => rfl
  | cons x frags ih => rw [sendFragments, if_pos rfl, h i, ih]

/-- The packet is cut up if it is too long and may be. -/
theorem ipSendit_eq (lay : ℕ → Layout) (ifOutput : ℕ → ℤ) (data : List Byte) (hmtu : 28 ≤ mtu)
    (hbig : mtu < ip.ipLen.toNat) (hdf : ip.ipOff &&& ipDF = 0) :
    ipSendit lay ifOutput ip data mtu =
      (ipFragments lay ip data ((mtu - 20) / 8 * 8)).map (sendFragments ifOutput 0 0) := by
  rw [ipSendit, if_neg (Nat.not_le.mpr hbig), if_neg (not_not.mpr hdf)]
  dsimp only
  rw [if_neg (by omega)]
  cases ipFragments lay ip data ((mtu - 20) / 8 * 8) <;> rfl

/-- All fragments are right exactly when those are that the code makes. -/
theorem fragmentsRight_iff_tile (hmtu : 28 ≤ mtu) (hbig : mtu < ip.ipLen.toNat) (hdf : ip.ipOff &&& ipDF = 0) :
    FragmentsRight lay ip data mtu ↔
      ∃ frags, ipFragments lay ip data ((mtu - 20) / 8 * 8) = some frags ∧ FragmentsTile ip data mtu 0 frags := by
  constructor
  · intro h
    obtain ⟨error, sent, frags, hsend, htile, -, hall⟩ := h fun _ => 0
    obtain ⟨-, rfl⟩ := hall fun _ => rfl
    rw [ipSendit_eq lay _ data hmtu hbig hdf] at hsend
    obtain ⟨frags, hfrags, hsent⟩ := Option.map_eq_some_iff.mp hsend
    rw [sendFragments_all (fun _ => rfl)] at hsent
    obtain ⟨-, rfl⟩ := Prod.mk.inj hsent
    exact ⟨frags, hfrags, htile⟩
  · rintro ⟨frags, hfrags, htile⟩ ifOutput
    refine ⟨(sendFragments ifOutput 0 0 frags).1, (sendFragments ifOutput 0 0 frags).2, frags, ?_, htile,
      sendFragments_prefix ifOutput 0 0 frags, fun hall => ?_⟩
    · rw [ipSendit_eq lay _ data hmtu hbig hdf, hfrags]
      rfl
    · rw [sendFragments_all hall]
      exact ⟨rfl, rfl⟩

theorem length_bytes (ip : Ip) : ip.bytes.length = 20 := rfl

/-- What is left of the packet in its first mbufs. -/
theorem adjust_packet (ip : Ip) (hn : len + 20 ≤ n) :
    adjust (ip.bytes ++ data) (20 + len - n) = (ip.bytes ++ data).take (20 + data.length - (n - (20 + len))) := by
  have hlen : ip.bytes.length = 20 := rfl
  rw [adjust]
  split_ifs with hneg
  · rw [show ((20 : ℤ) + len - n).toNat = 0 by omega, List.drop_zero, List.take_of_length_le]
    rw [List.length_append]
    omega
  · rw [List.length_append, hlen, show (-((20 : ℤ) + len - n)).toNat = n - (20 + len) by omega]

/-- The first fragment has what is left of the packet. -/
theorem ipFragments_cases (hn : len + 20 ≤ ip.ipLen.toNat) (h : ipFragments lay ip data len = some frags) :
    ∃ x rest, frags = x :: rest ∧ x.data.length = data.length - (ip.ipLen.toNat - (20 + len)) ∧
      laterFragments lay ip (ip.bytes ++ data) (ip.ipLen.toNat + 1) 1 (20 + len) len = some rest := by
  rw [ipFragments] at h
  obtain ⟨rest, hrest, h⟩ := Option.bind_eq_some_iff.mp h
  obtain ⟨ipSum, -, h⟩ := Option.bind_eq_some_iff.mp h
  obtain rfl := Option.some.inj h
  refine ⟨_, rest, rfl, ?_, hrest⟩
  dsimp only
  rw [adjust_packet _ hn, List.length_drop, List.length_take, List.length_append, length_bytes]
  omega

theorem ipFragments_eq (lay : ℕ → Layout) (hn : 20 + data.length = ip.ipLen.toNat) (hlen : len ≤ data.length)
    (hrest : laterFragments lay ip (ip.bytes ++ data) (ip.ipLen.toNat + 1) 1 (20 + len) len = some rest) :
    ipFragments lay ip data len =
      some (madeFragment ip (BitVec.ofNat 16 (20 + len)) (ip.ipOff ||| ipMF) (data.take len) :: rest) := by
  have hleft : 20 + data.length - (ip.ipLen.toNat - (20 + len)) = 20 + len := by omega
  have htake (ip : Ip) : (ip.bytes ++ data).take (20 + len) = ip.bytes ++ data.take len :=
    (List.take_length_add_append len : (ip.bytes ++ data).take (ip.bytes.length + len) = _)
  rw [ipFragments, hrest]
  dsimp only [Option.bind_eq_bind, Option.bind_some]
  rw [adjust_packet _ (by omega), hleft, htake, ipCksum_eq, Option.bind_some, List.drop_left' (length_bytes _)]
  rfl

/-! ## Main results -/

theorem fragmentsTile_of_ok (hmtu : 28 ≤ mtu) (hbig : mtu < ip.ipLen.toNat) (h : FragmentsOk ip data mtu) :
    ∃ frags, ipFragments lay ip data ((mtu - 20) / 8 * 8) = some frags ∧ FragmentsTile ip data mtu 0 frags := by
  obtain ⟨hn, hfits⟩ := h
  have hlt := ip.ipLen.isLt
  have hdvd : 8 ∣ (mtu - 20) / 8 * 8 := Nat.dvd_mul_left 8 _
  have hpos : 0 < (mtu - 20) / 8 * 8 := by omega
  have hle : (mtu - 20) / 8 * 8 ≤ mtu - 20 := Nat.div_mul_le_self _ _
  dsimp only at hfits
  generalize (mtu - 20) / 8 * 8 = len at *
  have hall (j : ℕ) (hj : j * len < data.length) : fragOffset ip.ipOff + j * (len / 8) < 8192 := by
    have hjk : j ≤ (ip.ipLen.toNat - 21) / len := (Nat.le_div_iff_mul_le hpos).mpr (by omega)
    have := Nat.mul_le_mul_right (len / 8) hjk
    omega
  obtain ⟨rest, hrest, hne, htile⟩ := laterFragments_tile lay (i := 1) (j := 1) hn hpos hdvd
    (by omega : 20 + len ≤ mtu) (by omega) hall (by omega) (by omega : data.length < 1 * len + (ip.ipLen.toNat + 1))
  rw [Nat.one_mul] at hrest htile
  have htake : (data.take len).length = len := by
    rw [List.length_take]
    omega
  refine ⟨_, ipFragments_eq lay hn (by omega) hrest, ?_, ?_⟩
  · rw [Nat.add_comm 20 len]
    conv in BitVec.ofNat _ _ => rw [← htake]
    refine madeFragment_right (by omega) (by omega) (by rw [htake, List.drop_zero]) ?_ ?_
    · rw [fragOffset_or]
      rfl
    · exact iff_of_true (moreFrags_or _) fun h => absurd h hne
  · show FragmentsTile ip data mtu (0 + (data.take len).length) rest
    rwa [htake, Nat.zero_add]

theorem ok_of_fragmentsTile (hmtu : 28 ≤ mtu) (hbig : mtu < ip.ipLen.toNat)
    (h : ipFragments lay ip data ((mtu - 20) / 8 * 8) = some frags) (htile : FragmentsTile ip data mtu 0 frags) :
    FragmentsOk ip data mtu := by
  have hlt := ip.ipLen.isLt
  have hdvd : 8 ∣ (mtu - 20) / 8 * 8 := Nat.dvd_mul_left 8 _
  have hpos : 0 < (mtu - 20) / 8 * 8 := by omega
  have hle : (mtu - 20) / 8 * 8 ≤ mtu - 20 := Nat.div_mul_le_self _ _
  rw [FragmentsOk]
  dsimp only
  generalize (mtu - 20) / 8 * 8 = len at *
  obtain ⟨x, rest, rfl, hlen, hrest⟩ := ipFragments_cases (by omega) h
  obtain ⟨-, htile⟩ := htile
  -- the second fragment says how long the first should be
  have hn : 20 + data.length = ip.ipLen.toNat := by
    rw [laterFragments_next lay ip _ ip.ipLen.toNat 1 len (by omega)] at hrest
    obtain ⟨rest, -, rfl⟩ := Option.map_eq_some_iff.mp hrest
    have hoff := htile.1.offset
    have hswap (off : ℕ) (last : Bool) : fragOffset (htons (htons (laterOff ip off last))) =
        ((off - 20) / 8 + fragOffset ip.ipOff) % 8192 :=
      (congrArg fragOffset (swap16_swap16 _)).trans (fragOffset_laterOff ip off last)
    have hoff := (congrArg (8 * ·) (hswap _ _)).symm.trans hoff
    have := fragOffset_lt ip.ipOff
    omega
  refine ⟨hn, ?_⟩
  rw [show 0 + x.data.length = 1 * len by omega] at htile
  have hfirst : 1 * len < data.length := by omega
  have hrest : laterFragments lay ip (ip.bytes ++ data) (ip.ipLen.toNat + 1) 1 (20 + 1 * len) len = some rest := by
    rwa [Nat.one_mul]
  have hlast : (ip.ipLen.toNat - 21) / len * len ≤ ip.ipLen.toNat - 21 := Nat.div_mul_le_self _ _
  exact fits_of_laterFragments hn hdvd hfirst ((Nat.le_div_iff_mul_le hpos).mpr (by omega)) (by omega) hrest htile

/-- **The fragments of a packet are right** exactly when `ip_len` is its length and all offsets have 13 bits. -/
theorem fragmentsRight_iff (lay : ℕ → Layout) (ip : Ip) (data : List Byte) (mtu : ℕ) (hmtu : 28 ≤ mtu)
    (hbig : mtu < ip.ipLen.toNat) (hdf : ip.ipOff &&& ipDF = 0) :
    FragmentsRight lay ip data mtu ↔ FragmentsOk ip data mtu := by
  rw [fragmentsRight_iff_tile hmtu hbig hdf]
  constructor
  · rintro ⟨frags, hfrags, htile⟩
    exact ok_of_fragmentsTile hmtu hbig hfrags htile
  · exact fragmentsTile_of_ok hmtu hbig

end

/-- Everything in one mbuf. -/
def oneMbuf : Layout := ⟨fun l => [⟨0, l⟩], fun l => List.append_nil l⟩

/-- A header from 10.0.0.1 to 10.0.0.2. -/
def udpHeader (ipLen : BitVec 16) : Ip := ⟨0x45, 0, ipLen, 1, 0, 64, 17, 0, 0x0100000a, 0x0200000a⟩

/-- A packet of 60 bytes is cut into pieces of at most 40. -/
theorem fragmentsRight_iff_sixty : 28 ≤ 40 ∧ 40 < (udpHeader 60).ipLen.toNat ∧ (udpHeader 60).ipOff &&& ipDF = 0 ∧
    FragmentsRight (fun _ => oneMbuf) (udpHeader 60) (List.replicate 40 7) 40 :=
  ⟨by decide, by decide, by decide,
    (fragmentsRight_iff (fun _ => oneMbuf) (udpHeader 60) (List.replicate 40 7) 40 (by decide) (by decide)
      (by decide)).mpr (by decide)⟩

/-- 70000 bytes behind the header of a datagram; `ip_len` is 70028 modulo 65536. -/
theorem fragments_can_overlap : ¬ ∀ lay ip data mtu, 28 ≤ mtu → mtu < ip.ipLen.toNat → ip.ipOff &&& ipDF = 0 →
    FragmentsRight lay ip data mtu := by
  intro hall
  have hmtu : 28 ≤ 1500 := by decide
  have hbig : 1500 < (udpHeader 4492).ipLen.toNat := by decide
  have hdf : (udpHeader 4492).ipOff &&& ipDF = 0 := by decide
  have hright := hall (fun _ => oneMbuf) (udpHeader 4492) (List.replicate 70008 0) 1500 hmtu hbig hdf
  obtain ⟨frags, hfrags, htile⟩ := (fragmentsRight_iff_tile hmtu hbig hdf).mp hright
  have hn := (ok_of_fragmentsTile hmtu hbig hfrags htile).1
  rw [List.length_replicate] at hn
  exact absurd hn (by decide)

end Shaunos.Net
