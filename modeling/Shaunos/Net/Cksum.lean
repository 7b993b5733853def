import Shaunos.Common.OnesComplement
import Shaunos.Net.Mbuf

/-!
# The internet checksum

Reference: `Kernel/netinet/check_sum.c` (`in_cksum`).

Words are added in 32 bits. Where an mbuf starts at an odd address its first byte is put aside, and the bytes of the
sum change places for the words behind it. An odd byte at the end is put aside too, until the next mbuf comes.

* `sums_cksumMbuf` — what one mbuf does to the sum;
* `cksumRight_iff` — the chains whose checksum is right.
-/

namespace Shaunos.Net

open SumOp

/-! ## The code -/

/-- An mbuf: `m_data`, and the bytes there, as many as `m_len` says. -/
structure CksumMbuf where
  mData : BitVec 32
  data : List Byte

/-- The variables of `in_cksum`. `c0` is `s_util.c[0]`. -/
structure Cksum where
  sum : BitVec 32
  mlen : ℤ
  c0 : Byte
  len : ℤ

/-- `REDUCE`. -/
def reduceSum (sum : BitVec 32) : BitVec 32 :=
  let sum := (sum.extractLsb' 0 16).setWidth 32 + (sum.extractLsb' 16 16).setWidth 32
  if 65535 < sum then sum - 65535 else sum

/-- Add the word with the bytes `a` and `b`, as it stands in memory. -/
def sumWord (sum : BitVec 32) (a b : Byte) : BitVec 32 := sum + (b ++ a).setWidth 32

/-- `sum += w[0]`, and so on for `k` words, and `w += k`. -/
def sumWords : (k : ℕ) → (sum : BitVec 32) → (w : List Byte) → BitVec 32 × List Byte
  | k + 1, sum, a :: b :: w => sumWords k (sumWord sum a b) w
  | _, sum, w => (sum, w)

/-- The loops that add `k` words at a time; with `2 * k` they begin with `mlen -= 2 * k`. -/
def cksumLoop (k : ℕ) : (fuel : ℕ) → (mlen : ℤ) → (sum : BitVec 32) → (w : List Byte) → ℤ × BitVec 32 × List Byte
  | 0, mlen, sum, w => (mlen, sum, w)
  | fuel + 1, mlen, sum, w =>
      let mlen := mlen - 2 * k
      if 0 ≤ mlen then
        let (sum, w) := sumWords k sum w
        cksumLoop k fuel mlen sum w
      else (mlen, sum, w)

/-- The rest of the body of the outer loop, from the loops over words on. -/
def cksumWords (byteSwapped : Bool) (w : List Byte) (s : Cksum) : Cksum :=
  let (mlen, sum, w) := cksumLoop 16 (w.length + 1) s.mlen s.sum w
  let mlen := mlen + 32
  let (mlen, sum, w) := cksumLoop 4 (w.length + 1) mlen sum w
  let mlen := mlen + 8
  if mlen = 0 ∧ byteSwapped = false then { s with sum, mlen }
  else
    let sum := reduceSum sum
    let (mlen, sum, w) := cksumLoop 1 (w.length + 1) mlen sum w
    if byteSwapped then
      let sum := reduceSum sum <<< 8
      if mlen = -1 then { s with sum := sumWord sum s.c0 (w.headD 0), mlen := 0 }
      else { s with sum, mlen := -1 }
    else if mlen = -1 then { s with sum, mlen, c0 := w.headD 0 }
    else { s with sum, mlen }

/-- The same from `if (len < mlen)` on; `addr` is the address of `w`. -/
def cksumStart (addr : BitVec 32) (w : List Byte) (s : Cksum) : Cksum :=
  let mlen := if s.len < s.mlen then s.len else s.mlen
  let len := s.len - mlen
  if addr.getLsbD 0 ∧ 0 < mlen then
    cksumWords true w.tail { sum := reduceSum s.sum <<< 8, mlen := mlen - 1, c0 := w.headD 0, len }
  else cksumWords false w { s with mlen, len }

/-- The body of the outer loop. -/
def cksumMbuf (m : CksumMbuf) (s : Cksum) : Cksum :=
  if m.data.length = 0 then s
  else if s.mlen = -1 then
    cksumStart (m.mData + 1) m.data.tail
      { s with sum := sumWord s.sum s.c0 (m.data.headD 0), mlen := m.data.length - 1, len := s.len - 1 }
  else cksumStart m.mData m.data { s with mlen := m.data.length }

/-- The outer loop. -/
def cksumChain : List CksumMbuf → Cksum → Cksum
  | [], s => s
  | m :: rest, s => if s.len = 0 then s else cksumChain rest (cksumMbuf m s)

/-- `in_cksum`; it panics when it is out of data. -/
def inCksum (m : List CksumMbuf) (len : ℕ) : Option (BitVec 32) :=
  let s := cksumChain m ⟨0, 0, 0, len⟩
  if s.len ≠ 0 then none
  else
    let sum := if s.mlen = -1 then sumWord s.sum s.c0 0 else s.sum
    some (~~~reduceSum sum &&& 0xffff)

/-! ## What should happen -/

/-- The bytes of a chain. -/
def cksumBytes (m : List CksumMbuf) : List Byte := m.flatMap CksumMbuf.data

/-- The checksum, as it stands in memory, is that of the first bytes. -/
def CksumRight (m : List CksumMbuf) (len : ℕ) : Prop :=
  inCksum m len = some ((swap16 (rfc1071 ((cksumBytes m).take len))).setWidth 32)

/-! ### What is added -/

/-- The words of some bytes; an odd byte is left out. -/
def wordOps : List Byte → List SumOp
  | a :: b :: l => .add (b ++ a) :: wordOps l
  | _ => []

/-- The bytes that are left over by `wordOps`. -/
def oddByte (l : List Byte) : Option Byte := if l.length % 2 = 1 then l.getLast? else none

/-- Bytes from an even address on: what is done to the sum, and the byte that is put aside. -/
def evenOps (l : List Byte) : List SumOp × Option Byte :=
  let n := 8 * (l.length / 8)
  if l.length % 8 = 0 then (wordOps l, none)
  else (wordOps (l.take n) ++ reduce :: wordOps (l.drop n), oddByte l)

/-- Bytes behind the byte `c`, which was at an odd address. -/
def oddOps (c : Byte) (l : List Byte) : List SumOp × Option Byte :=
  let n := 8 * (l.length / 8)
  let ops := wordOps (l.take n) ++ reduce :: wordOps (l.drop n) ++ [swap]
  match oddByte l with
  | some b => (ops ++ [add (b ++ c)], none)
  | none => (ops, some c)

/-- The bytes of an mbuf behind the one that goes with a byte put aside. -/
def startOps (odd : Bool) (l : List Byte) : List SumOp × Option Byte :=
  match odd, l with
  | true, c :: l =>
      let (ops, pend) := oddOps c l
      (swap :: ops, pend)
  | _, l => evenOps l

/-- The bytes that are taken from an mbuf. -/
def mbufOps (odd : Bool) (pend : Option Byte) (l : List Byte) : List SumOp × Option Byte :=
  match pend, l with
  | some c, b :: l =>
      let (ops, pend) := startOps (!odd) l
      (add (b ++ c) :: ops, pend)
  | pend, [] => ([], pend)
  | none, l => startOps odd l

/-- What is done to the sum for a chain. -/
def chainOps : (pend : Option Byte) → (len : ℕ) → List CksumMbuf → List SumOp × Option Byte
  | pend, _, [] => ([], pend)
  | pend, len, m :: rest =>
      let (ops, pend) := mbufOps (m.mData.getLsbD 0) pend (m.data.take len)
      let (ops', pend) := chainOps pend (len - m.data.length) rest
      (ops ++ ops', pend)

/-- The same with the byte that is left in the end, which a zero goes with. -/
def cksumOps (m : List CksumMbuf) (len : ℕ) : List SumOp :=
  let (ops, pend) := chainOps none len m
  ops ++ pend.toList.map fun c => add ((0 : Byte) ++ c)

/-- Without a bound, the sum stays below `2 ^ 32` all along. -/
def CksumFits (m : List CksumMbuf) (len : ℕ) : Prop := Fits 0 (cksumOps m len ++ [reduce])

section

variable {sum : BitVec 32} {a b c : Byte} {k n fuel : ℕ} {w l l' : List Byte}

/-! ## The sum -/

theorem toNat_reduceSum (sum : BitVec 32) : (reduceSum sum).toNat = wrap sum.toNat reduce := by
  have hlt := sum.isLt
  have hsum : ((sum.extractLsb' 0 16).setWidth 32 + (sum.extractLsb' 16 16).setWidth 32).toNat =
      sum.toNat % 65536 + sum.toNat / 65536 := by
    rw [BitVec.toNat_add, BitVec.toNat_setWidth, BitVec.toNat_setWidth, BitVec.extractLsb'_toNat,
      BitVec.extractLsb'_toNat, Nat.shiftRight_eq_div_pow, Nat.shiftRight_eq_div_pow, Nat.pow_zero, Nat.div_one,
      Nat.mod_eq_of_lt (show sum.toNat / 2 ^ 16 < 2 ^ 16 by omega)]
    omega
  rw [wrap, SumOp.exact, Nat.mod_eq_of_lt (Nat.lt_of_le_of_lt (foldHalves_le _) hlt), reduceSum, foldHalves, ← hsum]
  generalize (sum.extractLsb' 0 16).setWidth 32 + (sum.extractLsb' 16 16).setWidth 32 = x
  have hx := x.isLt
  have hfull : (65535 : BitVec 32).toNat = 65535 := rfl
  by_cases h : 65535 < x
  · rw [if_pos h, if_pos (hfull ▸ BitVec.lt_def.mp h), BitVec.toNat_sub, hfull]
    rw [BitVec.lt_def, hfull] at h
    omega
  · rw [if_neg h, if_neg (hfull ▸ mt BitVec.lt_def.mpr h)]

theorem toNat_swapSum (sum : BitVec 32) : (reduceSum sum <<< 8).toNat = wrap sum.toNat swap := by
  have hlt := foldHalves_lt sum.isLt
  rw [BitVec.toNat_shiftLeft, toNat_reduceSum, Nat.shiftLeft_eq, wrap, wrap, SumOp.exact, SumOp.exact]
  omega

theorem toNat_sumWord (sum : BitVec 32) (a b : Byte) : (sumWord sum a b).toNat = wrap sum.toNat (add (b ++ a)) := by
  have hlt := (b ++ a).isLt
  rw [sumWord, BitVec.toNat_add, BitVec.toNat_setWidth, wrap, SumOp.exact]
  omega

/-! ## The loops over words -/

theorem wordOps_append (h : Even l.length) (l' : List Byte) : wordOps (l ++ l') = wordOps l ++ wordOps l' := by
  induction l using List.twoStepInduction with
  | nil => rfl
  | singleton a => exact absurd h (by simp)
  | cons_cons a b l ih _ =>
      rw [List.length_cons, List.length_cons, Nat.even_add_one, Nat.even_add_one, not_not] at h
      rw [List.cons_append, List.cons_append, wordOps, wordOps, ih h, List.cons_append]

theorem sumWords_spec (sum : BitVec 32) (h : 2 * k ≤ w.length) :
    (sumWords k sum w).1.toNat = (wordOps (w.take (2 * k))).foldl wrap sum.toNat ∧
      (sumWords k sum w).2 = w.drop (2 * k) := by
  induction k generalizing sum w with
  | zero => exact ⟨rfl, rfl⟩
  | succ k ih =>
      match w, h with
      | a :: b :: w, h =>
          rw [List.length_cons, List.length_cons] at h
          obtain ⟨hsum, hw⟩ := ih (w := w) (sumWord sum a b) (by omega)
          rw [sumWords, hsum, hw, show 2 * (k + 1) = 2 * k + 1 + 1 by ring, List.take_succ_cons, List.take_succ_cons,
            List.drop_succ_cons, List.drop_succ_cons, wordOps, List.foldl_cons, toNat_sumWord]
          exact ⟨rfl, rfl⟩

/-- What the loops over words do. -/
theorem cksumLoop_spec (sum : BitVec 32) (hk : 0 < k) (hn : n ≤ w.length) (hfuel : n < fuel) :
    ∃ sum' : BitVec 32, cksumLoop k fuel n sum w = (((n % (2 * k) : ℕ) : ℤ) - 2 * k, sum', w.drop (2 * k * (n / (2 * k)))) ∧
      sum'.toNat = (wordOps (w.take (2 * k * (n / (2 * k))))).foldl wrap sum.toNat := by
  induction fuel generalizing n sum w with
  | zero => omega
  | succ fuel ih =>
      rw [cksumLoop]
      dsimp only
      rcases Nat.lt_or_ge n (2 * k) with hlt | hge
      · rw [if_neg (by omega), Nat.mod_eq_of_lt hlt, Nat.div_eq_of_lt hlt]
        exact ⟨sum, rfl, rfl⟩
      · obtain ⟨j, rfl⟩ := Nat.exists_eq_add_of_le hge
        obtain ⟨hsum, hw⟩ := sumWords_spec sum (hge.trans hn)
        obtain ⟨sum', hloop, hsum'⟩ := ih (n := j) (w := w.drop (2 * k)) (sumWords k sum w).1
          (by rw [List.length_drop]; omega) (by omega)
        rw [if_pos (by omega), show ((2 * k + j : ℕ) : ℤ) - 2 * k = j by push_cast; ring, hw, hloop,
          Nat.add_mod_left, Nat.add_div_left _ (by omega), List.drop_drop]
        refine ⟨sum', ?_, ?_⟩
        · rw [Nat.mul_succ, Nat.add_comm (2 * k)]
        · rw [hsum', hsum, Nat.mul_succ, Nat.add_comm, List.take_add, wordOps_append, List.foldl_append]
          rw [List.length_take, Nat.min_eq_left (hge.trans hn)]
          exact even_two_mul k

/-- The loops that add sixteen and four words at a time. -/
theorem cksumLoops_spec (hn : n ≤ w.length) (sum : BitVec 32) : ∃ mlen sum₁ w₁ sum₂,
    cksumLoop 16 (w.length + 1) n sum w = (mlen, sum₁, w₁) ∧
      cksumLoop 4 (w₁.length + 1) (mlen + 32) sum₁ w₁ = (((n % 8 : ℕ) : ℤ) - 8, sum₂, w.drop (8 * (n / 8))) ∧
        sum₂.toNat = (wordOps (w.take (8 * (n / 8)))).foldl wrap sum.toNat := by
  obtain ⟨sum₁, hloop, hsum⟩ := cksumLoop_spec (k := 16) sum (by omega) hn (by omega : n < w.length + 1)
  have hn' : n % 32 ≤ (w.drop (32 * (n / 32))).length := by
    rw [List.length_drop]
    omega
  obtain ⟨sum₂, hloop', hsum'⟩ := cksumLoop_spec (k := 4) sum₁ (by omega) hn' (Nat.lt_succ_of_le hn')
  have hall : 32 * (n / 32) + 8 * (n % 32 / 8) = 8 * (n / 8) := by omega
  refine ⟨_, sum₁, _, sum₂, hloop, ?_, ?_⟩
  · rw [show (((n % (2 * 16) : ℕ) : ℤ) - 2 * (16 : ℕ) + 32) = (n % 32 : ℕ) by push_cast; ring, hloop', List.drop_drop, hall,
      show n % 32 % (2 * 4) = n % 8 by omega]
    rfl
  · rw [hsum', hsum, ← List.foldl_append, ← wordOps_append, ← hall, List.take_add]
    rw [List.length_take, Nat.min_eq_left (by omega)]
    exact (by decide : Even (2 * 16)).mul_right _

/-- An odd byte at the end is left out. -/
theorem wordOps_take_even (w : List Byte) (n : ℕ) : wordOps (w.take (2 * (n / 2))) = wordOps (w.take n) := by
  have hn : n = 2 * (n / 2) + n % 2 := (Nat.div_add_mod n 2).symm
  rcases Nat.mod_two_eq_zero_or_one n with heven | hodd
  · rw [heven, Nat.add_zero] at hn
    rw [← hn]
  · conv_rhs => rw [hn, hodd, List.take_add]
    rcases Nat.lt_or_ge (2 * (n / 2)) w.length with hlt | hge
    · have heven : Even (w.take (2 * (n / 2))).length := by
        rw [List.length_take, Nat.min_eq_left hlt.le]
        exact even_two_mul _
      rw [wordOps_append heven, List.drop_eq_getElem_cons hlt]
      exact (List.append_nil _).symm
    · rw [List.drop_eq_nil_of_le hge, List.take_nil, List.append_nil]

theorem oddByte_take (hn : n ≤ w.length) :
    oddByte (w.take n) = if n % 2 = 1 then some ((w.drop (2 * (n / 2))).headD 0) else none := by
  rw [oddByte, List.length_take, Nat.min_eq_left hn]
  split_ifs with hodd
  · have hlt : 2 * (n / 2) < w.length := by omega
    have hn' : n = 2 * (n / 2) + 1 := by omega
    conv_lhs => rw [hn', List.take_add, List.drop_eq_getElem_cons hlt]
    rw [List.drop_eq_getElem_cons hlt]
    exact List.getLast?_concat
  · rfl

/-- What is done to a sum, which was `n`, and the byte that is put aside. -/
structure Sums (n : ℕ) (x : List SumOp × Option Byte) (r : Cksum) : Prop where
  sum : r.sum.toNat = x.1.foldl wrap n
  mlen : r.mlen = -1 ↔ x.2.isSome = true
  c0 : ∀ c ∈ x.2, r.c0 = c

theorem Sums.none {ops : List SumOp} {r : Cksum} (hsum : r.sum.toNat = ops.foldl wrap n) (hmlen : r.mlen ≠ -1) :
    Sums n (ops, none) r := ⟨hsum, by simp [hmlen], fun c hc => (Option.not_mem_none c hc).elim⟩

theorem Sums.some {ops : List SumOp} {r : Cksum} (hsum : r.sum.toNat = ops.foldl wrap n) (hmlen : r.mlen = -1)
    (hc : r.c0 = c) : Sums n (ops, some c) r := ⟨hsum, by simp [hmlen], fun _ hmem => hc.trans (Option.some.inj hmem)⟩

/-- The loop that adds one word at a time. -/
theorem cksumRest_spec (hn : n ≤ w.length) (sum : BitVec 32) : ∃ sum' : BitVec 32,
    cksumLoop 1 ((w.drop (8 * (n / 8))).length + 1) (n % 8 : ℕ) sum (w.drop (8 * (n / 8))) =
        (((n % 2 : ℕ) : ℤ) - 2, sum', w.drop (2 * (n / 2))) ∧
      sum'.toNat = (wordOps ((w.take n).drop (8 * (n / 8)))).foldl wrap sum.toNat := by
  have hn' : n % 8 ≤ (w.drop (8 * (n / 8))).length := by
    rw [List.length_drop]
    omega
  obtain ⟨sum', hloop, hsum⟩ := cksumLoop_spec (k := 1) sum (by omega) hn' (Nat.lt_succ_of_le hn')
  refine ⟨sum', ?_, ?_⟩
  · rw [hloop, List.drop_drop, show 8 * (n / 8) + 2 * 1 * (n % 8 / (2 * 1)) = 2 * (n / 2) by omega,
      show n % 8 % (2 * 1) = n % 2 by omega]
    rfl
  · rw [hsum, Nat.mul_one, wordOps_take_even, List.drop_take, show n - 8 * (n / 8) = n % 8 by omega]

theorem cksumWords_even (hn : n ≤ w.length) (s : Cksum) (hmlen : s.mlen = n) :
    Sums s.sum.toNat (evenOps (w.take n)) (cksumWords false w s) ∧ (cksumWords false w s).len = s.len := by
  obtain ⟨mlen, sum₁, w₁, sum₂, hloop, hloop', hsum⟩ := cksumLoops_spec hn s.sum
  obtain ⟨sum₃, hrest, hsum'⟩ := cksumRest_spec hn (reduceSum sum₂)
  rw [cksumWords, evenOps, hmlen, hloop]
  dsimp only
  rw [hloop']
  dsimp only
  rw [sub_add_cancel, hrest, List.length_take, Nat.min_eq_left hn, oddByte_take hn, List.take_take,
    Nat.min_eq_left (Nat.mul_div_le n 8)]
  by_cases height : n % 8 = 0
  · -- all words are gone
    have hzero : ((n % 8 : ℕ) : ℤ) = 0 ∧ false = false := ⟨by rw [height]; rfl, rfl⟩
    rw [if_pos height, if_pos hzero]
    refine ⟨.none ?_ ?_, rfl⟩
    · rw [hsum, show 8 * (n / 8) = n by omega]
    · dsimp only
      omega
  have hzero : ¬ (((n % 8 : ℕ) : ℤ) = 0 ∧ false = false) := fun h => height (by exact_mod_cast h.1)
  rw [if_neg height, if_neg hzero, if_neg Bool.false_ne_true]
  dsimp only
  have hall : sum₃.toNat = (wordOps (w.take (8 * (n / 8))) ++ reduce :: wordOps ((w.take n).drop (8 * (n / 8)))).foldl
      wrap s.sum.toNat := by
    rw [hsum', toNat_reduceSum, hsum, List.foldl_append, List.foldl_cons]
  rcases Nat.mod_two_eq_zero_or_one n with heven | hodd
  · rw [heven, if_neg Nat.zero_ne_one, if_neg (by decide : ((0 : ℕ) : ℤ) - 2 ≠ -1)]
    exact ⟨.none hall (by decide : ((0 : ℕ) : ℤ) - 2 ≠ -1), rfl⟩
  · rw [hodd, if_pos rfl, if_pos (by decide : ((1 : ℕ) : ℤ) - 2 = -1)]
    exact ⟨.some hall rfl rfl, rfl⟩

theorem cksumWords_odd (hn : n ≤ w.length) (s : Cksum) (hmlen : s.mlen = n) :
    Sums s.sum.toNat (oddOps s.c0 (w.take n)) (cksumWords true w s) ∧ (cksumWords true w s).len = s.len := by
  obtain ⟨mlen, sum₁, w₁, sum₂, hloop, hloop', hsum⟩ := cksumLoops_spec hn s.sum
  obtain ⟨sum₃, hrest, hsum'⟩ := cksumRest_spec hn (reduceSum sum₂)
  have hbyte : ¬ (((n % 8 : ℕ) : ℤ) = 0 ∧ true = false) := fun h => Bool.noConfusion h.2
  rw [cksumWords, oddOps, hmlen, hloop]
  dsimp only
  rw [hloop']
  dsimp only
  rw [sub_add_cancel, hrest, List.length_take, Nat.min_eq_left hn, oddByte_take hn, List.take_take,
    Nat.min_eq_left (Nat.mul_div_le n 8), if_neg hbyte, if_pos rfl]
  dsimp only
  have hall : (reduceSum sum₃ <<< 8).toNat = (wordOps (w.take (8 * (n / 8))) ++
      reduce :: wordOps ((w.take n).drop (8 * (n / 8))) ++ [swap]).foldl wrap s.sum.toNat := by
    rw [toNat_swapSum, hsum', toNat_reduceSum, hsum, List.foldl_append, List.foldl_append, List.foldl_cons]
    rfl
  rcases Nat.mod_two_eq_zero_or_one n with heven | hodd
  · rw [heven, if_neg Nat.zero_ne_one, if_neg (by decide : ((0 : ℕ) : ℤ) - 2 ≠ -1)]
    exact ⟨.some hall rfl rfl, rfl⟩
  · rw [hodd, if_pos rfl, if_pos (by decide : ((1 : ℕ) : ℤ) - 2 = -1)]
    refine ⟨.none ?_ (by decide : (0 : ℤ) ≠ -1), rfl⟩
    dsimp only
    rw [toNat_sumWord, hall]
    conv_rhs => rw [List.foldl_append]
    rfl

/-! ## Mbufs -/

variable {s r : Cksum} {pend : Option Byte} {m : CksumMbuf} {x y : List SumOp × Option Byte}

theorem Sums.trans (hx : Sums n x s) (hy : Sums s.sum.toNat y r) : Sums n (x.1 ++ y.1, y.2) r where
  sum := by rw [hy.sum, hx.sum, List.foldl_append]
  mlen := hy.mlen
  c0 := hy.c0

theorem startOps_false (l : List Byte) : startOps false l = evenOps l := by
  cases l <;> rfl

theorem startOps_nil (odd : Bool) : startOps odd [] = evenOps [] := by
  cases odd <;> rfl

theorem cksumStart_spec (addr : BitVec 32) (hmlen : s.mlen = w.length) (hlen : s.len = n) :
    Sums s.sum.toNat (startOps (addr.getLsbD 0) (w.take n)) (cksumStart addr w s) ∧
      (cksumStart addr w s).len = (n - w.length : ℕ) := by
  have hmin : (if s.len < s.mlen then s.len else s.mlen) = (min n w.length : ℕ) := by
    rw [hmlen, hlen]
    split_ifs <;> omega
  have hleft : s.len - (min n w.length : ℕ) = (n - w.length : ℕ) := by
    rw [hlen]
    omega
  rw [cksumStart, hmin, hleft, List.take_eq_take_min]
  by_cases hodd : addr.getLsbD 0 = true ∧ 0 < ((min n w.length : ℕ) : ℤ)
  · -- the first byte is put aside
    rw [if_pos hodd, hodd.1]
    obtain ⟨c, rest, rfl⟩ := List.exists_cons_of_length_pos (show 0 < w.length by omega)
    obtain ⟨k, hk⟩ : ∃ k, min n (c :: rest).length = k + 1 := ⟨min n (c :: rest).length - 1, by omega⟩
    have hle : k ≤ rest.length := by
      have := Nat.min_le_right n (c :: rest).length
      rw [List.length_cons] at this hk
      omega
    rw [hk, List.take_succ_cons, startOps]
    obtain ⟨hsums, hlen⟩ := cksumWords_odd hle
      ⟨reduceSum s.sum <<< 8, ((k + 1 : ℕ) : ℤ) - 1, c, (n - (c :: rest).length : ℕ)⟩ (by push_cast; ring)
    refine ⟨⟨hsums.sum.trans ?_, hsums.mlen, hsums.c0⟩, hlen⟩
    dsimp only
    rw [List.foldl_cons, toNat_swapSum]
  · have hstart : startOps (addr.getLsbD 0) (w.take (min n w.length)) = evenOps (w.take (min n w.length)) := by
      by_cases hbit : addr.getLsbD 0 = true
      · have hzero : min n w.length = 0 := by
          have := not_and.mp hodd hbit
          omega
        rw [hzero, List.take_zero]
        exact startOps_nil _
      · rw [Bool.eq_false_of_not_eq_true hbit]
        exact startOps_false _
    rw [if_neg hodd, hstart]
    exact cksumWords_even (Nat.min_le_right n w.length) { s with mlen := (min n w.length : ℕ), len := _ } rfl

theorem getLsbD_next (addr : BitVec 32) : (addr + 1).getLsbD 0 = !addr.getLsbD 0 := by
  have hadd : (addr + 1).toNat % 2 = (addr.toNat + 1) % 2 := by
    rw [BitVec.toNat_add, show (1 : BitVec 32).toNat = 1 from rfl]
    omega
  rw [BitVec.getLsbD, BitVec.getLsbD, Nat.testBit_zero, Nat.testBit_zero, hadd, ← decide_not]
  exact decide_eq_decide.mpr (by omega)

/-- What one mbuf does to the sum; `pend` was put aside before it. -/
theorem sums_cksumMbuf (m : CksumMbuf) (hpos : 0 < n) (hlen : s.len = n) (hmlen : s.mlen = -1 ↔ pend.isSome = true)
    (hc : ∀ c ∈ pend, s.c0 = c) :
    Sums s.sum.toNat (mbufOps (m.mData.getLsbD 0) pend (m.data.take n)) (cksumMbuf m s) ∧
      (cksumMbuf m s).len = (n - m.data.length : ℕ) := by
  obtain ⟨addr, data⟩ := m
  rw [cksumMbuf]
  dsimp only
  cases data with
  | nil =>
      have hnil : mbufOps (addr.getLsbD 0) pend [] = ([], pend) := by cases pend <;> rfl
      rw [if_pos List.length_nil, List.take_nil, hnil]
      exact ⟨⟨rfl, hmlen, hc⟩, hlen⟩
  | cons b data =>
      obtain ⟨k, rfl⟩ : ∃ k, n = k + 1 := ⟨n - 1, by omega⟩
      rw [if_neg (by simp), List.take_succ_cons]
      cases pend with
      | none =>
          have hnot : s.mlen ≠ -1 := fun h => Bool.noConfusion (hmlen.mp h)
          rw [if_neg hnot, mbufOps, ← List.take_succ_cons]
          · exact cksumStart_spec addr (s := { s with mlen := ((b :: data).length : ℤ) }) rfl hlen
          · simp
      | some c =>
          obtain rfl : s.c0 = c := hc c rfl
          rw [if_pos (hmlen.mpr rfl), mbufOps, ← getLsbD_next]
          have hspec := cksumStart_spec (addr + 1) (w := data) (n := k)
            (s := { s with sum := sumWord s.sum s.c0 b, mlen := ((b :: data).length : ℤ) - 1, len := s.len - 1 })
            (by rw [List.length_cons]; push_cast; ring) (by dsimp only; omega)
          refine ⟨⟨hspec.1.sum.trans ?_, hspec.1.mlen, hspec.1.c0⟩, hspec.2.trans ?_⟩
          · dsimp only
            rw [List.foldl_cons, toNat_sumWord]
          · rw [List.length_cons, Nat.add_sub_add_right]

theorem chainOps_zero (pend : Option Byte) (m : List CksumMbuf) : chainOps pend 0 m = ([], pend) := by
  induction m generalizing pend with
  | nil => rfl
  | cons m rest ih =>
      have hnil : mbufOps (m.mData.getLsbD 0) pend [] = ([], pend) := by cases pend <;> rfl
      rw [chainOps, List.take_zero, hnil]
      dsimp only
      rw [Nat.zero_sub, ih]
      rfl

/-- What a chain does to the sum. -/
theorem sums_cksumChain (pend : Option Byte) (m : List CksumMbuf) (hlen : s.len = n) (hmlen : s.mlen = -1 ↔ pend.isSome = true)
    (hc : ∀ c ∈ pend, s.c0 = c) :
    Sums s.sum.toNat (chainOps pend n m) (cksumChain m s) ∧
      (cksumChain m s).len = (n - (cksumBytes m).length : ℕ) := by
  induction m generalizing s n pend with
  | nil => exact ⟨⟨rfl, hmlen, hc⟩, hlen⟩
  | cons m rest ih =>
      rcases Nat.eq_zero_or_pos n with rfl | hpos
      · rw [cksumChain, if_pos (hlen.trans Nat.cast_zero), chainOps_zero, Nat.zero_sub]
        exact ⟨⟨rfl, hmlen, hc⟩, hlen⟩
      · obtain ⟨hsums, hlen'⟩ := sums_cksumMbuf m hpos hlen hmlen hc
        obtain ⟨hrest, hlen''⟩ := ih _ hlen' hsums.mlen hsums.c0
        rw [cksumChain, if_neg (by omega), chainOps]
        refine ⟨hsums.trans hrest, hlen''.trans ?_⟩
        rw [cksumBytes, cksumBytes, List.flatMap_cons, List.length_append, Nat.sub_add_eq]

/-- The checksum is taken from the sum. -/
theorem inCksum_eq {m : List CksumMbuf} (hn : n ≤ (cksumBytes m).length) : ∃ sum : BitVec 32,
    sum.toNat = (cksumOps m n ++ [reduce]).foldl wrap 0 ∧ inCksum m n = some (~~~sum &&& 0xffff) := by
  obtain ⟨hsums, hlen⟩ := sums_cksumChain (s := ⟨0, 0, 0, n⟩) (n := n) none m rfl (by simp) (by simp)
  rw [Nat.sub_eq_zero_of_le hn, Nat.cast_zero] at hlen
  rw [inCksum]
  dsimp only
  rw [if_neg (not_not.mpr hlen)]
  refine ⟨_, ?_, rfl⟩
  rw [toNat_reduceSum, cksumOps, List.foldl_append]
  refine congrArg (fun n => wrap n reduce) ?_
  have hsum := hsums.sum
  have hmlen := hsums.mlen
  have hc := hsums.c0
  dsimp only
  rw [List.foldl_append]
  cases hpend : (chainOps none n m).2 with
  | none =>
      rw [if_neg (by rw [hmlen, hpend]; simp)]
      exact hsum
  | some c =>
      rw [if_pos (by rw [hmlen, hpend]; rfl), toNat_sumWord, hsum, hc c hpend]
      rfl

/-- It panics where the chain has too few bytes. -/
theorem inCksum_short {m : List CksumMbuf} (hn : (cksumBytes m).length < n) : inCksum m n = none := by
  obtain ⟨-, hlen⟩ := sums_cksumChain (s := ⟨0, 0, 0, n⟩) (n := n) none m rfl (by simp) (by simp)
  rw [inCksum]
  dsimp only
  rw [if_pos (by omega)]

/-! ## What is added -/

/-- A sum of some bytes but the one that is put aside; it belongs to the bytes in the other places if `swapped`. -/
structure Summed (swapped : Bool) (ops : List SumOp) (pend : Option Byte) (pre : List Byte) : Prop where
  residue : (if swapped then 256 else 1) * ops.foldl SumOp.residue 0 + leNum pend.toList = leNum pre
  odd : pend.isSome = true ↔ ¬ Even pre.length
  zero : AllZero ops ∧ (∀ c ∈ pend, c = 0) ↔ ∀ b ∈ pre, b = 0
  count : 2 * ops.countP isAdd + pend.toList.length ≤ pre.length

theorem allZero_append {ops ops' : List SumOp} : AllZero (ops ++ ops') ↔ AllZero ops ∧ AllZero ops' := by
  simp only [AllZero, List.mem_append, or_imp, forall_and]

theorem wordOps_sum (h : Even l.length) :
    (∀ v, (wordOps l).foldl SumOp.residue v = v + leNum l) ∧ (AllZero (wordOps l) ↔ ∀ b ∈ l, b = 0) ∧
      2 * (wordOps l).countP isAdd ≤ l.length := by
  induction l using List.twoStepInduction with
  | nil => exact ⟨fun v => (add_zero v).symm, by simp [wordOps, AllZero], Nat.le_refl 0⟩
  | singleton a => exact absurd h (by simp)
  | cons_cons a b l ih _ =>
      rw [List.length_cons, List.length_cons, Nat.even_add_one, Nat.even_add_one, not_not] at h
      obtain ⟨hres, hzero, hcount⟩ := ih h
      refine ⟨fun v => ?_, ?_, ?_⟩
      · rw [wordOps, List.foldl_cons, hres, SumOp.residue, toNat_byteAppend, leNum_cons, leNum_cons, mul_add, zmod_square]
        push_cast
        ring
      · have hcons : AllZero (add (b ++ a) :: wordOps l) ↔ b ++ a = (0 : BitVec 16) ∧ AllZero (wordOps l) := by
          simp [AllZero]
        rw [wordOps, hcons, hzero, byteAppend_eq_zero, List.forall_mem_cons, List.forall_mem_cons, and_assoc, and_left_comm]
      · rw [wordOps, List.countP_cons_of_pos rfl, List.length_cons, List.length_cons]
        omega

namespace Summed

variable {ops : List SumOp} {pre : List Byte} {swapped : Bool}

protected theorem nil : Summed false [] none [] :=
  ⟨by simp, by simp, by simp [AllZero], Nat.le_refl 0⟩

theorem words (h : Summed swapped ops pend pre) (hpend : pend.isSome = swapped) (hl : Even l.length) :
    Summed swapped (ops ++ wordOps l) pend (pre ++ l) := by
  obtain ⟨hres, hzero, hcount⟩ := wordOps_sum hl
  refine ⟨?_, ?_, ?_, ?_⟩
  · have hodd := h.odd
    rw [List.foldl_append, hres, mul_add, add_right_comm, h.residue]
    cases swapped with
    | false =>
        rw [hpend] at hodd
        rw [leNum_append_even (not_not.mp (hodd.not.mp (by simp)))]
        simp
    | true => rw [leNum_append_odd (hodd.mp hpend), if_pos rfl]
  · rw [h.odd, List.length_append, Nat.even_add, iff_true_right hl]
  · rw [allZero_append, hzero, and_right_comm, h.zero, List.forall_mem_append]
  · have := h.count
    rw [List.countP_append, List.length_append]
    omega

theorem reduce (h : Summed swapped ops pend pre) : Summed swapped (ops ++ [.reduce]) pend pre := by
  refine ⟨?_, h.odd, ?_, ?_⟩
  · rw [List.foldl_append]
    exact h.residue
  · rw [allZero_append, ← h.zero]
    simp [AllZero]
  · rw [List.countP_append]
    exact h.count

/-- A byte is put aside at the end of an mbuf. -/
theorem hold (h : Summed false ops none pre) (b : Byte) : Summed false ops (some b) (pre ++ [b]) := by
  have heven : Even pre.length := not_not.mp (h.odd.not.mp (by simp))
  refine ⟨?_, ?_, ?_, ?_⟩
  · have hres := h.residue
    rw [leNum_append_even heven, ← hres]
    simp
  · rw [List.length_append, List.length_singleton, Nat.even_add_one, not_not]
    exact iff_of_true rfl heven
  · rw [List.forall_mem_append, ← h.zero]
    simp
  · rw [List.length_append]
    exact Nat.add_le_add_right h.count 1

/-- A byte goes with the one that was put aside. -/
theorem pair (h : Summed false ops (some c) pre) (b : Byte) :
    Summed false (ops ++ [add (b ++ c)]) none (pre ++ [b]) := by
  have hodd : ¬ Even pre.length := h.odd.mp rfl
  refine ⟨?_, ?_, ?_, ?_⟩
  · have hres := h.residue
    rw [leNum_append_odd hodd, ← hres, List.foldl_append, List.foldl_cons, List.foldl_nil, SumOp.residue, toNat_byteAppend]
    simp
    ring
  · rw [List.length_append, List.length_singleton, Nat.even_add_one, not_not]
    exact iff_of_false (by simp) hodd
  · have hpair : AllZero [add (b ++ c)] ↔ b = 0 ∧ c = 0 := by
      rw [← byteAppend_eq_zero]
      simp [AllZero]
    rw [allZero_append, List.forall_mem_append, ← h.zero, hpair]
    simp
    tauto
  · have := h.count
    rw [Option.toList_some, List.length_singleton] at this
    rw [List.countP_append, List.length_append, show [add (b ++ c)].countP isAdd = 1 from rfl, List.length_singleton,
      Option.toList_none, List.length_nil]
    omega

/-- The first byte of an mbuf is put aside, and the bytes of the sum change places. -/
theorem start (h : Summed false ops none pre) (c : Byte) :
    Summed true (ops ++ [swap]) (some c) (pre ++ [c]) := by
  have heven : Even pre.length := not_not.mp (h.odd.not.mp (by simp))
  refine ⟨?_, ?_, ?_, ?_⟩
  · have hres := h.residue
    rw [leNum_append_even heven, ← hres, List.foldl_append, List.foldl_cons, List.foldl_nil, SumOp.residue, if_pos rfl,
      zmod_square]
    simp
  · rw [List.length_append, List.length_singleton, Nat.even_add_one, not_not]
    exact iff_of_true rfl heven
  · rw [allZero_append, List.forall_mem_append, ← h.zero]
    simp [AllZero]
  · rw [List.countP_append, List.length_append]
    exact Nat.add_le_add_right h.count 1

/-- The bytes of the sum change places again. -/
theorem finish (h : Summed true ops pend pre) : Summed false (ops ++ [swap]) pend pre := by
  refine ⟨?_, h.odd, ?_, ?_⟩
  · rw [← h.residue, List.foldl_append, List.foldl_cons, List.foldl_nil, SumOp.residue, if_pos rfl]
    simp
  · rw [allZero_append, ← h.zero]
    simp [AllZero]
  · rw [List.countP_append]
    exact h.count

end Summed

/-- An odd byte at the end is left over. -/
theorem exists_split (l : List Byte) :
    ∃ e, l = e ++ (oddByte l).toList ∧ Even e.length ∧ wordOps l = wordOps e := by
  refine ⟨l.take (2 * (l.length / 2)), ?_, ?_, ?_⟩
  · have hlast := oddByte_take (Nat.le_refl l.length)
    rw [List.take_length] at hlast
    conv_lhs => rw [← List.take_append_drop (2 * (l.length / 2)) l]
    rw [hlast]
    congr 1
    split_ifs with hodd
    · have hlt : 2 * (l.length / 2) < l.length := by omega
      rw [List.drop_eq_getElem_cons hlt, List.drop_eq_nil_of_le (by omega)]
      rfl
    · exact List.drop_eq_nil_of_le (by omega)
  · rw [List.length_take, Nat.min_eq_left (by omega)]
    exact even_two_mul _
  · rw [wordOps_take_even, List.take_length]

theorem oddByte_drop {k : ℕ} (hk : 2 * k ≤ l.length) : oddByte (l.drop (2 * k)) = oddByte l := by
  rw [oddByte, oddByte, List.length_drop, show (l.length - 2 * k) % 2 = l.length % 2 by omega]
  split_ifs with hodd
  · rw [List.getLast?_drop, if_neg (by omega)]
  · rfl

namespace Summed

variable {ops : List SumOp} {pre : List Byte}

/-- The words of an mbuf, with a carry before the last few. -/
theorem split {swapped : Bool} (h : Summed swapped ops pend pre) (hpend : pend.isSome = swapped) (l : List Byte) :
    ∃ e, l = e ++ (oddByte l).toList ∧ Summed swapped
      (ops ++ (wordOps (l.take (8 * (l.length / 8))) ++ .reduce :: wordOps (l.drop (8 * (l.length / 8))))) pend
      (pre ++ e) := by
  obtain ⟨e, hsplit, heven, hwords⟩ := exists_split (l.drop (8 * (l.length / 8)))
  have height : 8 * (l.length / 8) = 2 * (4 * (l.length / 8)) := by ring
  have hbyte : oddByte (l.drop (8 * (l.length / 8))) = oddByte l := by
    rw [height]
    exact oddByte_drop (by omega)
  have htake : Even (l.take (8 * (l.length / 8))).length := by
    rw [List.length_take, Nat.min_eq_left (by omega), height]
    exact even_two_mul _
  refine ⟨l.take (8 * (l.length / 8)) ++ e, ?_, ?_⟩
  · rw [List.append_assoc, ← hbyte, ← hsplit, List.take_append_drop]
  · have hall := ((h.words hpend htake).reduce).words hpend heven
    rw [← hwords] at hall
    simpa only [List.append_assoc, List.singleton_append] using hall

theorem evenOps (h : Summed false ops none pre) (l : List Byte) :
    Summed false (ops ++ (evenOps l).1) (evenOps l).2 (pre ++ l) := by
  rw [Net.evenOps]
  split_ifs with height
  · exact h.words rfl (Nat.even_iff.mpr (by omega))
  · obtain ⟨e, hsplit, hsum⟩ := h.split rfl l
    have hpre : pre ++ l = pre ++ e ++ (oddByte l).toList := by rw [List.append_assoc, ← hsplit]
    rw [hpre]
    cases oddByte l with
    | none =>
        rw [Option.toList_none, List.append_nil]
        exact hsum
    | some b => exact hsum.hold b

theorem oddOps (h : Summed true ops (some c) pre) (l : List Byte) :
    Summed false (ops ++ (oddOps c l).1) (oddOps c l).2 (pre ++ l) := by
  rw [Net.oddOps]
  obtain ⟨e, hsplit, hsum⟩ := h.split rfl l
  have hpre : pre ++ l = pre ++ e ++ (oddByte l).toList := by rw [List.append_assoc, ← hsplit]
  rw [hpre]
  cases oddByte l with
  | none =>
      rw [Option.toList_none, List.append_nil, ← List.append_assoc]
      exact hsum.finish
  | some b =>
      dsimp only
      rw [← List.append_assoc, ← List.append_assoc]
      exact hsum.finish.pair b

theorem startOps (h : Summed false ops none pre) (odd : Bool) (l : List Byte) :
    Summed false (ops ++ (startOps odd l).1) (startOps odd l).2 (pre ++ l) := by
  cases odd with
  | false =>
      rw [startOps_false]
      exact h.evenOps l
  | true =>
      cases l with
      | nil =>
          rw [startOps_nil]
          exact h.evenOps []
      | cons c l =>
          have hodd := (h.start c).oddOps l
          rwa [List.append_assoc, List.append_assoc] at hodd

theorem mbufOps (h : Summed false ops pend pre) (odd : Bool) (l : List Byte) :
    Summed false (ops ++ (mbufOps odd pend l).1) (mbufOps odd pend l).2 (pre ++ l) := by
  cases l with
  | nil =>
      have hnil : Net.mbufOps odd pend [] = ([], pend) := by cases pend <;> rfl
      rw [hnil, List.append_nil, List.append_nil]
      exact h
  | cons b l =>
      cases pend with
      | none => exact h.startOps odd (b :: l)
      | some c =>
          have hrest := (h.pair b).startOps (!odd) l
          rwa [List.append_assoc, List.append_assoc] at hrest

theorem chainOps (h : Summed false ops pend pre) (n : ℕ) (m : List CksumMbuf) :
    Summed false (ops ++ (chainOps pend n m).1) (chainOps pend n m).2 (pre ++ (cksumBytes m).take n) := by
  induction m generalizing ops pend pre n with
  | nil =>
      rw [cksumBytes, List.flatMap_nil, List.take_nil, Net.chainOps, List.append_nil, List.append_nil]
      exact h
  | cons m rest ih =>
      have hrest := ih (h.mbufOps (m.mData.getLsbD 0) (m.data.take n)) (n - m.data.length)
      rw [cksumBytes, List.flatMap_cons, List.take_append]
      rwa [List.append_assoc, List.append_assoc] at hrest

end Summed

/-- The sum of a chain, with a zero behind an odd number of bytes. -/
theorem summed_cksumOps (m : List CksumMbuf) (n : ℕ) :
    (cksumOps m n).foldl SumOp.residue 0 = leNum ((cksumBytes m).take n) ∧
      (AllZero (cksumOps m n) ↔ ∀ b ∈ (cksumBytes m).take n, b = 0) ∧
        2 * (cksumOps m n).countP isAdd ≤ n + 1 := by
  have hsum := Summed.nil.chainOps n m
  have hlen : ((cksumBytes m).take n).length ≤ n := List.length_take_le n _
  rw [List.nil_append, List.nil_append] at hsum
  rw [cksumOps]
  cases hpend : (chainOps none n m).2 with
  | none =>
      rw [hpend] at hsum
      dsimp only
      rw [hpend, Option.toList_none, List.map_nil, List.append_nil]
      refine ⟨?_, ?_, hsum.count.trans (by omega)⟩
      · have hres := hsum.residue
        simpa using hres
      · rw [← hsum.zero]
        simp
  | some c =>
      rw [hpend] at hsum
      have hodd := hsum.odd.mp rfl
      have hpair := hsum.pair 0
      dsimp only
      rw [hpend, Option.toList_some, List.map_singleton]
      refine ⟨?_, ?_, hpair.count.trans ?_⟩
      · have hres := hpair.residue
        rw [leNum_append_odd hodd] at hres
        simpa using hres
      · have hzero := hpair.zero
        rw [List.forall_mem_append] at hzero
        simpa using hzero
      · rw [List.length_append, List.length_singleton]
        omega

theorem not_and_eq_iff (h : sum.toNat < 65536) (y : BitVec 16) :
    ~~~sum &&& 0xffff = (~~~y).setWidth 32 ↔ sum.toNat = y.toNat := by
  have hy := y.isLt
  rw [BitVec.toNat_eq, BitVec.toNat_and, BitVec.toNat_not, show (0xffff : BitVec 32).toNat = 2 ^ 16 - 1 from rfl,
    Nat.and_two_pow_sub_one_eq_mod, BitVec.toNat_setWidth, BitVec.toNat_not]
  omega

end

/-! ## Main results -/

/-- The condition is met by everything that fits into a packet. -/
theorem cksumFits_of_le {m : List CksumMbuf} {len : ℕ} (h : len ≤ 130000) : CksumFits m len := by
  obtain ⟨-, -, hcount⟩ := summed_cksumOps m len
  refine fits_of_countP ?_
  rw [List.countP_append, show [reduce].countP isAdd = 0 from rfl]
  omega

theorem exists_sum {m : List CksumMbuf} {len : ℕ} (hlen : len ≤ (cksumBytes m).length) : ∃ sum : BitVec 32,
    sum.toNat = (cksumOps m len ++ [reduce]).foldl wrap 0 ∧
      (CksumRight m len ↔ sum.toNat = (swap16 (onesSum (beWords ((cksumBytes m).take len)))).toNat) := by
  obtain ⟨sum, hsum, hres⟩ := inCksum_eq hlen
  have hlt : sum.toNat < 65536 := by
    rw [hsum, List.foldl_append]
    exact Nat.lt_of_le_of_lt (Nat.mod_le _ _) (foldHalves_lt (foldl_wrap_lt (by omega) _))
  refine ⟨sum, hsum, ?_⟩
  rw [CksumRight, hres, Option.some_inj, rfc1071, swap16_not]
  exact not_and_eq_iff hlt _

theorem cksumRight_of_fits {m : List CksumMbuf} {len : ℕ} (hlen : len ≤ (cksumBytes m).length)
    (h : CksumFits m len) : CksumRight m len := by
  obtain ⟨sum, hsum, hright⟩ := exists_sum hlen
  obtain ⟨hresidue, hzero, -⟩ := summed_cksumOps m len
  have hspec := isSum_swap_onesSum ((cksumBytes m).take len)
  have hwrap := isSum_wrap h
  rw [hresidue, ← hsum] at hwrap
  exact hright.mpr (hwrap.unique ⟨hspec.lt, hspec.residue_eq, hspec.zero_iff.trans hzero.symm⟩)

theorem cksumFits_of_right {m : List CksumMbuf} {len : ℕ} (hlen : len ≤ (cksumBytes m).length) (hsmall : len < 2 ^ 24)
    (h : CksumRight m len) : CksumFits m len := by
  obtain ⟨sum, hsum, hright⟩ := exists_sum hlen
  obtain ⟨hresidue, -, hcount⟩ := summed_cksumOps m len
  have hspec := isSum_swap_onesSum ((cksumBytes m).take len)
  by_contra hfits
  refine foldl_wrap_ne ?_ hfits ?_
  · rw [List.countP_append, show [reduce].countP isAdd = 0 from rfl]
    omega
  · rw [← hsum, hright.mp h, hspec.residue_eq, List.foldl_append, hresidue]
    rfl

/-- **The checksum is right** if nothing is carried out of the sum, and only then unless there are very many bytes. -/
theorem cksumRight_iff (m : List CksumMbuf) (len : ℕ) (hlen : len ≤ (cksumBytes m).length) :
    (CksumFits m len → CksumRight m len) ∧ (len < 2 ^ 24 → (CksumRight m len ↔ CksumFits m len)) :=
  ⟨cksumRight_of_fits hlen, fun hsmall => ⟨cksumFits_of_right hlen hsmall, cksumRight_of_fits hlen⟩⟩

/-- Three bytes at an odd address, and two. -/
theorem cksumRight_iff_five :
    5 ≤ (cksumBytes [⟨1, [1, 2, 3]⟩, ⟨0, [4, 5]⟩]).length ∧ CksumRight [⟨1, [1, 2, 3]⟩, ⟨0, [4, 5]⟩] 5 := by
  have hlen : 5 ≤ (cksumBytes [⟨1, [1, 2, 3]⟩, ⟨0, [4, 5]⟩]).length := by decide
  exact ⟨hlen, (cksumRight_iff _ 5 hlen).1 (cksumFits_of_le (by omega))⟩

/-- A cluster full of ones. -/
def fullCluster : CksumMbuf := ⟨0, List.replicate 2048 0xff⟩

theorem wordOps_replicate (n : ℕ) : wordOps (List.replicate (2 * n) 0xff) = List.replicate n (add 0xffff) := by
  induction n with
  | zero => rfl
  | succ n ih =>
      rw [Nat.mul_succ, List.replicate_succ, List.replicate_succ, wordOps, ih, List.replicate_succ]
      rfl

theorem mbufOps_ones {n : ℕ} (hpos : 0 < n) (height : 2 * n % 8 = 0) :
    mbufOps false none (List.replicate (2 * n) 0xff) = (List.replicate n (add 0xffff), none) := by
  have hstart : mbufOps false none (List.replicate (2 * n) 0xff) = startOps false (List.replicate (2 * n) 0xff) := by
    obtain ⟨k, hk⟩ : ∃ k, 2 * n = k + 1 := ⟨2 * n - 1, by omega⟩
    rw [hk]
    rfl
  rw [hstart, startOps_false, evenOps, List.length_replicate, if_pos height, wordOps_replicate]

theorem length_fullCluster : fullCluster.data.length = 2048 := List.length_replicate

theorem length_clusters (k : ℕ) : (cksumBytes (List.replicate k fullCluster)).length = 2048 * k := by
  induction k with
  | zero => rfl
  | succ k ih =>
      rw [cksumBytes] at ih ⊢
      rw [List.replicate_succ, List.flatMap_cons, List.length_append, ih, length_fullCluster]
      ring

theorem chainOps_clusters (k : ℕ) :
    chainOps none (2048 * k) (List.replicate k fullCluster) = (List.replicate (1024 * k) (add 0xffff), none) := by
  induction k with
  | zero => rfl
  | succ k ih =>
      have htake : fullCluster.data.take (2048 * (k + 1)) = List.replicate (2 * 1024) 0xff := by
        rw [fullCluster, List.take_replicate, Nat.min_eq_right (by omega)]
      have hleft : 2048 * (k + 1) - fullCluster.data.length = 2048 * k := by
        rw [length_fullCluster]
        omega
      rw [List.replicate_succ, chainOps, htake, show fullCluster.mData.getLsbD 0 = false from rfl,
        mbufOps_ones (by norm_num) (by norm_num)]
      dsimp only
      rw [hleft, ih]
      dsimp only
      rw [List.replicate_append_replicate, show 1024 + 1024 * k = 1024 * (k + 1) by ring]

theorem clusters_wrong {k : ℕ} (hbig : 2 ^ 32 ≤ 1024 * k * 65535) (hsmall : 2048 * k < 2 ^ 24) :
    ¬ CksumRight (List.replicate k fullCluster) (2048 * k) := by
  intro hright
  have hfits := cksumFits_of_right (length_clusters k).ge hsmall hright
  rw [CksumFits, fits_append, cksumOps, chainOps_clusters] at hfits
  have hlt := hfits.1.foldl_lt (by norm_num)
  dsimp only at hlt
  rw [Option.toList_none, List.map_nil, List.append_nil, foldl_exact_replicate,
    show (0xffff : BitVec 16).toNat = 65535 from rfl] at hlt
  omega

theorem cksum_can_overflow : ¬ ∀ m len, len ≤ (cksumBytes m).length → CksumRight m len := fun hall =>
  clusters_wrong (k := 65) (by norm_num) (by norm_num) (hall _ _ (length_clusters 65).ge)

end Shaunos.Net
