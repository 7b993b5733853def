import Mathlib

/-!
# Ones' complement sums

Words of 16 bits are added with an end-around carry. Modulo 65535 the sum is the number that has the bytes as its
digits, the first byte least. That leaves open 0 and 65535, and a sum is 0 only if all words are.

Carries can be put off: words are added in 32 bits, the halves are added now and then, and the bytes of the sum are
swapped when words start at odd places.

* `IsSum.unique` — the residue and the words determine a sum;
* `isSum_wrap` — a sum in 32 bits is right if nothing is carried out of it;
* `fits_of_countP` — which is so if there are few words;
* `foldl_wrap_ne` — and wrong otherwise, as long as there are not too many words.
-/

namespace Shaunos

/-! ## Bytes and words -/

/-- The number with some bytes as its digits, modulo 65535. -/
def leNum (l : List (BitVec 8)) : ZMod 65535 := Nat.ofDigits 256 (l.map BitVec.toNat)

/-- The words in network order, with a zero behind an odd number of bytes. -/
def beWords : List (BitVec 8) → List (BitVec 16)
  | [] => []
  | [a] => [a ++ (0 : BitVec 8)]
  | a :: b :: l => (a ++ b) :: beWords l

/-- Addition with an end-around carry. -/
def addCarry (x y : BitVec 16) : BitVec 16 := if x.toNat + y.toNat < 65536 then x + y else x + y + 1

def onesSum (l : List (BitVec 16)) : BitVec 16 := l.foldl addCarry 0

/-- The internet checksum of some bytes. -/
def rfc1071 (l : List (BitVec 8)) : BitVec 16 := ~~~onesSum (beWords l)

def swap16 (x : BitVec 16) : BitVec 16 := x.extractLsb' 0 8 ++ x.extractLsb' 8 8

/-- `x` is a sum of words with a residue; `zero` says that all of them are zero. -/
structure IsSum (x : ℕ) (residue : ZMod 65535) (zero : Prop) : Prop where
  lt : x < 65536
  residue_eq : (x : ZMod 65535) = residue
  zero_iff : x = 0 ↔ zero

section

variable {x y n : ℕ} {v : ZMod 65535} {z : Prop} {a b : BitVec 8} {l l' : List (BitVec 8)}

theorem IsSum.unique (hx : IsSum x v z) (hy : IsSum y v z) : x = y := by
  have heq : x % 65535 = y % 65535 := (ZMod.natCast_eq_natCast_iff' x y 65535).mp (hx.residue_eq.trans hy.residue_eq.symm)
  have hzero := hx.zero_iff.trans hy.zero_iff.symm
  have := hx.lt
  have := hy.lt
  omega

theorem zmod_word (n : ℕ) : ((65536 * n : ℕ) : ZMod 65535) = n := by
  rw [Nat.cast_mul, show ((65536 : ℕ) : ZMod 65535) = 1 from rfl, one_mul]

theorem zmod_square (v : ZMod 65535) : 256 * (256 * v) = v := by
  rw [← mul_assoc, show (256 : ZMod 65535) * 256 = 1 from rfl, one_mul]

@[simp] theorem leNum_nil : leNum [] = 0 := rfl

@[simp] theorem leNum_cons : leNum (a :: l) = (a.toNat : ZMod 65535) + 256 * leNum l := rfl

theorem leNum_append_even (h : Even l.length) (l' : List (BitVec 8)) : leNum (l ++ l') = leNum l + leNum l' := by
  induction l using List.twoStepInduction with
  | nil => rw [List.nil_append, leNum_nil, zero_add]
  | singleton a => exact absurd h (by simp)
  | cons_cons a b l ih _ =>
      have heven : Even l.length := by
        rw [List.length_cons, List.length_cons, Nat.even_add_one, Nat.even_add_one, not_not] at h
        exact h
      rw [List.cons_append, List.cons_append, leNum_cons, leNum_cons, leNum_cons, leNum_cons, ih heven]
      simp only [mul_add, zmod_square]
      ring

theorem leNum_append_odd (h : ¬ Even l.length) (l' : List (BitVec 8)) : leNum (l ++ l') = leNum l + 256 * leNum l' := by
  cases l with
  | nil => exact absurd Even.zero h
  | cons a l =>
      rw [List.length_cons, Nat.even_add_one, not_not] at h
      rw [List.cons_append, leNum_cons, leNum_cons, leNum_append_even h]
      ring

/-! ## The sum in network order -/

theorem toNat_addCarry (x y : BitVec 16) :
    (addCarry x y).toNat = if x.toNat + y.toNat < 65536 then x.toNat + y.toNat else x.toNat + y.toNat - 65535 := by
  have hx := x.isLt
  have hy := y.isLt
  rw [addCarry]
  split_ifs with h
  · rw [BitVec.toNat_add]
    omega
  · rw [BitVec.toNat_add, BitVec.toNat_add, show (1 : BitVec 16).toNat = 1 from rfl]
    omega

theorem zmod_addCarry (x y : BitVec 16) :
    ((addCarry x y).toNat : ZMod 65535) = (x.toNat : ZMod 65535) + (y.toNat : ZMod 65535) := by
  rw [toNat_addCarry, ← Nat.cast_add]
  split_ifs with h
  · rfl
  · rw [Nat.cast_sub (by omega), show ((65535 : ℕ) : ZMod 65535) = 0 from rfl, sub_zero]

theorem addCarry_eq_zero {x y : BitVec 16} : addCarry x y = 0 ↔ x = 0 ∧ y = 0 := by
  rw [BitVec.toNat_eq, BitVec.toNat_eq, BitVec.toNat_eq, toNat_addCarry]
  have hzero : (0 : BitVec 16).toNat = 0 := rfl
  split_ifs <;> omega

theorem foldl_addCarry (ws : List (BitVec 16)) (x : BitVec 16) :
    ((ws.foldl addCarry x).toNat : ZMod 65535) = x.toNat + (ws.map fun w => (w.toNat : ZMod 65535)).sum ∧
      (ws.foldl addCarry x = 0 ↔ x = 0 ∧ ∀ w ∈ ws, w = 0) := by
  induction ws generalizing x with
  | nil => simp
  | cons w ws ih =>
      obtain ⟨hres, hzero⟩ := ih (addCarry x w)
      rw [List.foldl_cons, hres, hzero, zmod_addCarry, addCarry_eq_zero, List.map_cons, List.sum_cons, List.forall_mem_cons]
      exact ⟨add_assoc _ _ _, and_assoc⟩

theorem toNat_byteAppend (a b : BitVec 8) : (a ++ b).toNat = 256 * a.toNat + b.toNat := by
  rw [BitVec.toNat_append, ← Nat.shiftLeft_add_eq_or_of_lt b.isLt, Nat.shiftLeft_eq, Nat.mul_comm]

theorem byteAppend_eq_zero : a ++ b = (0 : BitVec 16) ↔ a = 0 ∧ b = 0 := by
  rw [BitVec.toNat_eq, BitVec.toNat_eq, BitVec.toNat_eq, toNat_byteAppend]
  have hzero : (0 : BitVec 16).toNat = 0 := rfl
  have hzero' : (0 : BitVec 8).toNat = 0 := rfl
  omega

theorem sum_beWords (l : List (BitVec 8)) :
    ((beWords l).map fun w => (w.toNat : ZMod 65535)).sum = 256 * leNum l ∧
      ((∀ w ∈ beWords l, w = 0) ↔ ∀ a ∈ l, a = 0) := by
  induction l using List.twoStepInduction with
  | nil => simp [beWords]
  | singleton a =>
      rw [beWords, List.map_singleton, List.sum_singleton, toNat_byteAppend, leNum_cons, leNum_nil, List.forall_mem_singleton,
        List.forall_mem_singleton, byteAppend_eq_zero]
      exact ⟨by push_cast; simp, and_iff_left rfl⟩
  | cons_cons a b l ih _ =>
      obtain ⟨hsum, hzero⟩ := ih
      rw [beWords, List.map_cons, List.sum_cons, hsum, toNat_byteAppend, leNum_cons, leNum_cons, List.forall_mem_cons, hzero,
        byteAppend_eq_zero, List.forall_mem_cons, List.forall_mem_cons, and_assoc]
      refine ⟨?_, Iff.rfl⟩
      rw [mul_add, mul_add, zmod_square, Nat.cast_add, Nat.cast_mul, add_assoc, mul_add, zmod_square]
      rfl

theorem toNat_swap16 (x : BitVec 16) : (swap16 x).toNat = 256 * (x.toNat % 256) + x.toNat / 256 := by
  have hx := x.isLt
  rw [swap16, toNat_byteAppend, BitVec.extractLsb'_toNat, BitVec.extractLsb'_toNat, Nat.shiftRight_eq_div_pow,
    Nat.shiftRight_eq_div_pow]
  omega

theorem swap16_not (x : BitVec 16) : swap16 (~~~x) = ~~~swap16 x := by
  have hx := x.isLt
  rw [BitVec.toNat_eq, toNat_swap16, BitVec.toNat_not, BitVec.toNat_not, toNat_swap16]
  omega

/-- The sum of the words in network order, with its bytes swapped. -/
theorem isSum_swap_onesSum (l : List (BitVec 8)) :
    IsSum (swap16 (onesSum (beWords l))).toNat (leNum l) (∀ a ∈ l, a = 0) where
  lt := (swap16 _).isLt
  residue_eq := by
    have hsplit := Nat.div_add_mod (onesSum (beWords l)).toNat 256
    have hres : ((onesSum (beWords l)).toNat : ZMod 65535) = 256 * leNum l := by
      rw [onesSum, (foldl_addCarry _ 0).1, (sum_beWords l).1]
      exact zero_add _
    have hword := congrArg (Nat.cast : ℕ → ZMod 65535) hsplit
    rw [Nat.cast_add, Nat.cast_mul, Nat.cast_ofNat] at hword
    rw [toNat_swap16, ← zmod_square (leNum l), ← hres, ← hword, mul_add, zmod_square, Nat.cast_add, Nat.cast_mul,
      add_comm, Nat.cast_ofNat]
  zero_iff := by
    have hzero := (foldl_addCarry (beWords l) 0).2
    rw [(sum_beWords l).2] at hzero
    have hswap : (swap16 (onesSum (beWords l))).toNat = 0 ↔ onesSum (beWords l) = 0 := by
      have := (onesSum (beWords l)).isLt
      rw [toNat_swap16, BitVec.toNat_eq, show (0 : BitVec 16).toNat = 0 from rfl]
      omega
    rw [hswap, onesSum, hzero]
    exact and_iff_right rfl

end

/-! ## Deferred carries -/

/-- What is done to a sum: a word is added, the halves are added, or they are added and the bytes change places. -/
inductive SumOp
  | add (x : BitVec 16)
  | reduce
  | swap

/-- Add the halves, and once more if there is a carry. -/
def foldHalves (n : ℕ) : ℕ :=
  let n := n % 65536 + n / 65536
  if 65535 < n then n - 65535 else n

namespace SumOp

/-- The sum without a bound. -/
def exact (n : ℕ) : SumOp → ℕ
  | add x => n + x.toNat
  | reduce => foldHalves n
  | swap => foldHalves n * 256

/-- The sum in 32 bits. -/
def wrap (n : ℕ) (op : SumOp) : ℕ := op.exact n % 2 ^ 32

/-- The sum modulo 65535. -/
def residue (v : ZMod 65535) : SumOp → ZMod 65535
  | add x => v + x.toNat
  | reduce => v
  | swap => 256 * v

/-- No word that is added is not zero. -/
def AllZero (ops : List SumOp) : Prop := ∀ x, add x ∈ ops → x = 0

def isAdd : SumOp → Bool
  | add _ => true
  | _ => false

/-- The sum stays below `2 ^ 32` all along. -/
def Fits : (n : ℕ) → List SumOp → Prop
  | _, [] => True
  | n, op :: ops => op.exact n < 2 ^ 32 ∧ Fits (op.exact n) ops

instance decidableFits : ∀ n ops, Decidable (Fits n ops)
  | _, [] => isTrue trivial
  | n, op :: ops =>
      have := decidableFits (op.exact n) ops
      inferInstanceAs (Decidable (op.exact n < 2 ^ 32 ∧ Fits (op.exact n) ops))

end SumOp

section

open SumOp

variable {n : ℕ} {v : ZMod 65535} {op : SumOp} {ops ops' : List SumOp}

theorem foldHalves_lt (h : n < 2 ^ 32) : foldHalves n < 65536 := by
  rw [foldHalves]
  split_ifs <;> omega

theorem foldHalves_le (n : ℕ) : foldHalves n ≤ n := by
  rw [foldHalves]
  split_ifs <;> omega

theorem foldHalves_eq_zero : foldHalves n = 0 ↔ n = 0 := by
  rw [foldHalves]
  split_ifs <;> omega

theorem zmod_foldHalves (n : ℕ) : (foldHalves n : ZMod 65535) = n := by
  have hsplit : ((n % 65536 + n / 65536 : ℕ) : ZMod 65535) = n := by
    conv_rhs => rw [← Nat.div_add_mod n 65536]
    rw [Nat.cast_add, Nat.cast_add, zmod_word, add_comm]
  rw [foldHalves]
  split_ifs with h
  · rw [Nat.cast_sub h.le, hsplit, show ((65535 : ℕ) : ZMod 65535) = 0 from rfl, sub_zero]
  · exact hsplit

/-! ### Without a bound -/

theorem zmod_exact (op : SumOp) (n : ℕ) : (op.exact n : ZMod 65535) = op.residue n := by
  cases op with
  | add x => exact Nat.cast_add _ _
  | reduce => exact zmod_foldHalves n
  | swap =>
      rw [SumOp.exact, SumOp.residue, Nat.cast_mul, zmod_foldHalves, mul_comm]
      rfl

theorem zmod_foldl_exact (ops : List SumOp) (n : ℕ) :
    ((ops.foldl SumOp.exact n : ℕ) : ZMod 65535) = ops.foldl SumOp.residue (n : ZMod 65535) := by
  induction ops generalizing n with
  | nil => rfl
  | cons op ops ih => rw [List.foldl_cons, List.foldl_cons, ih, zmod_exact]

theorem foldl_exact_eq_zero (ops : List SumOp) (n : ℕ) : ops.foldl SumOp.exact n = 0 ↔ n = 0 ∧ AllZero ops := by
  induction ops generalizing n with
  | nil => simp [AllZero]
  | cons op ops ih =>
      rw [List.foldl_cons, ih]
      cases op with
      | add x =>
          have hword : x.toNat = 0 ↔ x = 0 := (BitVec.toNat_eq (y := 0)).symm
          simp [AllZero, SumOp.exact, hword, and_assoc]
      | reduce => simp [AllZero, SumOp.exact, foldHalves_eq_zero]
      | swap => simp [AllZero, SumOp.exact, foldHalves_eq_zero]

/-! ### In 32 bits -/

theorem fits_append : Fits n (ops ++ ops') ↔ Fits n ops ∧ Fits (ops.foldl SumOp.exact n) ops' := by
  induction ops generalizing n with
  | nil => exact (and_iff_right trivial).symm
  | cons op ops ih => rw [List.cons_append, Fits, Fits, ih, List.foldl_cons, and_assoc]

theorem foldl_wrap_of_fits (h : Fits n ops) : ops.foldl wrap n = ops.foldl SumOp.exact n := by
  induction ops generalizing n with
  | nil => rfl
  | cons op ops ih => rw [List.foldl_cons, List.foldl_cons, wrap, Nat.mod_eq_of_lt h.1, ih h.2]

theorem foldl_wrap_lt (h : n < 2 ^ 32) (ops : List SumOp) : ops.foldl wrap n < 2 ^ 32 := by
  induction ops generalizing n with
  | nil => exact h
  | cons op ops ih => exact ih (Nat.mod_lt _ (by omega))

/-- A sum that fits is right. -/
theorem isSum_wrap (h : Fits 0 (ops ++ [reduce])) :
    IsSum ((ops ++ [reduce]).foldl wrap 0) (ops.foldl SumOp.residue 0) (AllZero ops) where
  lt := by
    rw [List.foldl_append]
    exact Nat.lt_of_le_of_lt (Nat.mod_le _ _) (foldHalves_lt (foldl_wrap_lt (by omega) ops))
  residue_eq := by
    rw [foldl_wrap_of_fits h, zmod_foldl_exact, List.foldl_append]
    rfl
  zero_iff := by
    rw [foldl_wrap_of_fits h, List.foldl_append]
    exact (foldHalves_eq_zero.trans (foldl_exact_eq_zero ops 0)).trans (and_iff_right rfl)

/-- What is carried out of the sum: `a` is missing from the sum in the end, and `b` with the bytes in the other places.
A carry needs many words. -/
theorem exists_lost (ops : List SumOp) : ∃ a b : ℕ,
    ((ops.foldl wrap 0 : ℕ) : ZMod 65535) + a + 256 * b = ops.foldl SumOp.residue 0 ∧
      4278190080 * (a + b) ≤ 65536 * ops.countP isAdd ∧
        ops.foldl wrap 0 + 4278190080 * (a + b) ≤ 65536 * ops.countP isAdd + 16777216 ∧
          (a + b = 0 → Fits 0 ops) := by
  induction ops using List.reverseRecOn with
  | nil => exact ⟨0, 0, by simp, by simp, by simp, fun _ => trivial⟩
  | append_singleton ops op ih =>
      obtain ⟨a, b, hres, hcount, hcount', hfits⟩ := ih
      have hlt := foldl_wrap_lt (by omega : 0 < 2 ^ 32) ops
      have hexact (h : a + b = 0) : ops.foldl SumOp.exact 0 = ops.foldl wrap 0 := (foldl_wrap_of_fits (hfits h)).symm
      simp only [List.foldl_append, List.foldl_cons, List.foldl_nil, List.countP_append, fits_append, Fits, and_true]
      rw [← hres]
      generalize ops.foldl wrap 0 = s at *
      have hhalves := foldHalves_lt hlt
      cases op with
      | add x =>
          have hx := x.isLt
          refine ⟨a + (s + x.toNat) / 2 ^ 32, b, ?_, ?_, ?_, fun hzero => ?_⟩
          · have hsplit := congrArg (Nat.cast : ℕ → ZMod 65535) (Nat.mod_add_div (s + x.toNat) (2 ^ 32))
            rw [Nat.cast_add, Nat.cast_mul, show ((2 ^ 32 : ℕ) : ZMod 65535) = 1 from rfl, one_mul, Nat.cast_add] at hsplit
            rw [wrap, SumOp.exact, SumOp.residue, Nat.cast_add]
            linear_combination hsplit
          · rw [show [add x].countP isAdd = 1 from rfl]
            omega
          · rw [wrap, SumOp.exact, show [add x].countP isAdd = 1 from rfl]
            omega
          · have hfree : a + b = 0 := by omega
            exact ⟨hfits hfree, by rw [hexact hfree, SumOp.exact]; omega⟩
      | reduce =>
          have hwrap : wrap s reduce = foldHalves s := Nat.mod_eq_of_lt (by rw [SumOp.exact]; omega)
          refine ⟨a, b, ?_, hcount, ?_, fun hzero => ?_⟩
          · rw [hwrap, zmod_foldHalves]
            rfl
          · rw [hwrap, show [reduce].countP isAdd = 0 from rfl]
            have := foldHalves_le s
            omega
          · exact ⟨hfits hzero, by rw [hexact hzero, SumOp.exact]; omega⟩
      | swap =>
          have hwrap : wrap s swap = foldHalves s * 256 := Nat.mod_eq_of_lt (by rw [SumOp.exact]; omega)
          refine ⟨b, a, ?_, Nat.add_comm a b ▸ hcount, ?_, fun hzero => ?_⟩
          · rw [hwrap, SumOp.residue, Nat.cast_mul, zmod_foldHalves, mul_add, mul_add, zmod_square]
            push_cast
            ring
          · rw [hwrap, show [swap].countP isAdd = 0 from rfl]
            omega
          · exact ⟨hfits (by omega), by rw [hexact (by omega), SumOp.exact]; omega⟩

/-- A sum of few words fits. -/
theorem fits_of_countP (hcount : ops.countP isAdd < 65280) : Fits 0 ops := by
  obtain ⟨a, b, -, hlost, -, hfits⟩ := exists_lost ops
  exact hfits (by omega)

theorem SumOp.Fits.foldl_lt (hn : n < 2 ^ 32) (h : Fits n ops) : ops.foldl SumOp.exact n < 2 ^ 32 := by
  rw [← foldl_wrap_of_fits h]
  exact foldl_wrap_lt hn ops

theorem foldl_exact_replicate (k n : ℕ) (x : BitVec 16) :
    (List.replicate k (add x)).foldl SumOp.exact n = n + k * x.toNat := by
  induction k generalizing n with
  | zero => rw [List.replicate_zero, List.foldl_nil, Nat.zero_mul, Nat.add_zero]
  | succ k ih => rw [List.replicate_succ, List.foldl_cons, ih, SumOp.exact, Nat.succ_mul, Nat.add_right_comm, Nat.add_assoc]

/-- A sum of not too many words that does not fit is wrong. -/
theorem foldl_wrap_ne (hcount : ops.countP isAdd ≤ 2 ^ 23) (h : ¬ Fits 0 ops) :
    ((ops.foldl wrap 0 : ℕ) : ZMod 65535) ≠ ops.foldl SumOp.residue 0 := by
  obtain ⟨a, b, hres, hlost, -, hfits⟩ := exists_lost ops
  have hpos : a + b ≠ 0 := fun hzero => h (hfits hzero)
  intro heq
  have hzero : ((a + 256 * b : ℕ) : ZMod 65535) = 0 := by
    rw [Nat.cast_add, Nat.cast_mul, Nat.cast_ofNat]
    linear_combination hres - heq
  have hdvd := (ZMod.natCast_eq_zero_iff _ _).mp hzero
  have := Nat.le_of_dvd (by omega) hdvd
  omega

end

end Shaunos
