import Mathlib

/-!
# Formatted output

Reference: `lib/vsprintf.c` (`vsnprintf`, `number`, `do_div`).

The format is given without its NUL. The arguments are words, and `str` says which string is at an address. What goes to
the buffer is a list of bytes, and the loop that has no end is the one behind a number that is padded on its right.

`do_div` takes the lower 32 bits of its dividend. `width` is set once, and each directive leaves what it has not used of
it to the next one. Only some bytes are counted in `len`.

* `vsnprintf_safeIff` — when `vsnprintf` stays in its buffer and in its format, and returns.
-/

namespace Shaunos.Printf

abbrev Byte := BitVec 8

def ascii (c : Char) : Byte := BitVec.ofNat 8 c.toNat

/-- What is left of a number in an `int`. -/
def wrap (x : ℤ) : ℤ := (x + 2 ^ 31) % 2 ^ 32 - 2 ^ 31

/-! ## The code -/

/-- The flags of a directive. -/
structure Flags where
  sign : Bool
  left : Bool
  space : Bool
  zeropad : Bool
  special : Bool
  small : Bool
  plus : Bool
deriving DecidableEq

def Flags.none : Flags := ⟨false, false, false, false, false, false, false⟩

/-- `while (--width >= 0) *buf++ = c;`, and what is left in `width`. -/
def padGe (c : Byte) (width : ℤ) : List Byte × ℤ :=
  if 0 ≤ wrap (width - 1) then (c :: (padGe c (wrap (width - 1))).1, (padGe c (wrap (width - 1))).2)
  else ([], wrap (width - 1))
termination_by (wrap (width - 1) + 1).toNat
decreasing_by all_goals (unfold wrap at *; omega)

/-- `while (--width > 0) *str++ = c;` -/
def padGt (c : Byte) (width : ℤ) : List Byte × ℤ :=
  if 0 < wrap (width - 1) then (c :: (padGt c (wrap (width - 1))).1, (padGt c (wrap (width - 1))).2)
  else ([], wrap (width - 1))
termination_by (wrap (width - 1)).toNat
decreasing_by all_goals (unfold wrap at *; omega)

/-- `while (width-- > 0) *str++ = c;` -/
def padPost (c : Byte) (width : ℤ) : List Byte × ℤ :=
  if 0 < width then (c :: (padPost c (width - 1)).1, (padPost c (width - 1)).2) else ([], wrap (width - 1))
termination_by width.toNat

/-- The loop for base 8 and 16, which fills `tmp`. -/
def shiftDigits (shift mask : ℕ) : (fuel num : ℕ) → List ℕ
  | 0, _ => []
  | fuel + 1, num =>
      (num % 2 ^ 8 &&& mask) :: if num >>> shift = 0 then [] else shiftDigits shift mask fuel (num >>> shift)

/-- The loop for base 10, with `do_div`. -/
def divDigits : (fuel num : ℕ) → List ℕ
  | 0, _ => []
  | fuel + 1, num =>
      num % 2 ^ 32 % 10 :: if num % 2 ^ 32 / 10 = 0 then [] else divDigits fuel (num % 2 ^ 32 / 10)

/-- `tmp`, which has room for 66 digits. -/
def tmpDigits (num base : ℕ) : List ℕ :=
  if num = 0 then [0]
  else if base ≠ 10 then shiftDigits (if base = 16 then 4 else 3) (base - 1) 66 num
  else divDigits 66 num

def locase (flags : Flags) : Byte := if flags.small then 0x20 else 0

/-- `digits[d] | locase` -/
def digitByte (flags : Flags) (d : ℕ) : Byte := BitVec.ofNat 8 (if d < 10 then 48 + d else 55 + d) ||| locase flags

/-- `while (i <= --precision) *buf++ = '0';` -/
def zeroLoop (i precision : ℤ) : List Byte :=
  if i ≤ precision - 1 then ascii '0' :: zeroLoop i (precision - 1) else []
termination_by (precision - i).toNat

/-- The sign of a number: what is printed, and the number without it. -/
def signOf (num : ℕ) (flags : Flags) : List Byte × ℕ :=
  if flags.sign then
    if 2 ^ 63 ≤ num then ([ascii '-'], (2 ^ 64 - num) % 2 ^ 64)
    else if flags.plus then ([ascii '+'], num)
    else if flags.space then ([ascii ' '], num)
    else ([], num)
  else ([], num)

/-- `need_pfx`, as the prefix itself. -/
def prefixOf (flags : Flags) (base : ℕ) : List Byte :=
  if flags.special ∧ base ≠ 10 then ascii '0' :: if base = 16 then [ascii 'X' ||| locase flags] else [] else []

/-- `number`. It does not return if there is something to be padded on the right. -/
def number (num : ℕ) (flags : Flags) (base : ℕ) (width precision : ℤ) : Option (List Byte) :=
  let (sign, num) := signOf num flags
  let width := wrap (width - sign.length)
  let width := wrap (width - (prefixOf flags base).length)
  let tmp := tmpDigits num base
  let i : ℤ := tmp.length
  let precision := if precision < i then i else precision
  let width := wrap (width - precision)
  let (spaces, width) := if ¬ flags.zeropad ∧ ¬ flags.left then padGe (ascii ' ') width else ([], width)
  let (pad, width) :=
    if ¬ flags.left then padGe (if flags.zeropad then ascii '0' else ascii ' ') width else ([], width)
  if 0 ≤ width then none
  else
    some (spaces ++ sign ++ prefixOf flags base ++ pad ++ zeroLoop i precision ++
      (tmp.map (digitByte flags)).reverse)

/-- What a directive says before its last character. -/
structure Conv where
  flag : Flags
  width : ℤ
  precesion : ℤ
  dot : Bool
  qualifier : Byte

def isDigit (ch : Byte) : Bool := ascii '0' ≤ ch ∧ ch ≤ ascii '9'

/-- The loop for the digits of a number, behind the first one: the number, and the rest of the format. -/
def digitsLoop (n : ℤ) : List Byte → ℤ × List Byte
  | [] => (n, [])
  | ch :: fmt => if isDigit ch then digitsLoop (wrap (n * 10 + (ch.toNat - 48))) fmt else (n, ch :: fmt)

theorem length_digitsLoop (n : ℤ) (fmt : List Byte) : (digitsLoop n fmt).2.length ≤ fmt.length := by
  induction fmt generalizing n with
  | nil => exact le_rfl
  | cons ch fmt ih =>
      rw [digitsLoop]
      split_ifs
      · exact (ih _).trans (Nat.le_succ _)
      · exact le_rfl

/-- What a character before the last one does to a directive, if it is one. -/
def Conv.flagChar (c : Conv) (ch : Byte) : Option Conv :=
  if ch = ascii '#' then some { c with flag := { c.flag with special := true } }
  else if ch = ascii '+' then some { c with flag := { c.flag with plus := true } }
  else if ch = ascii '-' then some { c with flag := { c.flag with left := true } }
  else if ch = ascii ' ' then some { c with flag := { c.flag with space := true } }
  else if ch = ascii '0' then some { c with flag := { c.flag with zeropad := true } }
  else if ch = ascii '.' then some { c with dot := true }
  else if ch = ascii 'L' then some { c with qualifier := ascii 'L' }
  else if ch = ascii 'H' then some { c with qualifier := ascii 'H' }
  else if ch = ascii 'l' then some { c with qualifier := if c.qualifier = ascii 'l' then ascii 'L' else ascii 'l' }
  else if ch = ascii 'z' ∨ ch = ascii 'Z' then some { c with qualifier := ascii 'z' }
  else if ch = ascii 'h' then some { c with qualifier := if c.qualifier = ascii 'h' then ascii 'H' else ascii 'h' }
  else if ch = ascii 't' then some { c with qualifier := ascii 't' }
  else none

/-- From `reswitch` on, up to the last character of a directive: the directive, that character, and the rest of the
format. If that character is the NUL, `fmt` is behind it. -/
def reswitch (c : Conv) : List Byte → Option (Conv × Byte × List Byte)
  | [] => none
  | ch :: fmt =>
      match c.flagChar ch with
      | some c => reswitch c fmt
      | none =>
          if isDigit ch then
            let n := (digitsLoop (ch.toNat - 48) fmt).1
            reswitch (if c.dot then { c with precesion := n } else { c with width := n })
              (digitsLoop (ch.toNat - 48) fmt).2
          else some (c, ch, fmt)
termination_by fmt => fmt.length
decreasing_by
  · exact Nat.lt_succ_self _
  · exact Nat.lt_succ_of_le (length_digitsLoop _ _)

/-- The arguments, and the strings that some of them point to. -/
structure Args where
  arg : ℕ → BitVec 32
  str : BitVec 32 → List Byte

/-- `va_arg(ap, long long)` -/
def Args.longlong (a : Args) (ap : ℕ) : ℤ := (a.arg (ap + 1) ++ a.arg ap).toInt

/-- `handle_sign`: the number, and the next argument. -/
def handleSign (a : Args) (qualifier : Byte) (ap : ℕ) : ℤ × ℕ :=
  if qualifier = ascii 'L' then (a.longlong ap, ap + 2)
  else if qualifier = ascii 'l' then ((a.arg ap).toInt, ap + 1)
  else if qualifier = ascii 'h' then (((a.arg ap).setWidth 16).toInt, ap + 1)
  else if qualifier = ascii 'H' then (((a.arg ap).setWidth 8).toInt, ap + 1)
  else if qualifier = ascii 'z' then ((a.arg ap).toInt, ap + 1)
  else if qualifier = ascii 't' then ((a.arg ap).toInt, ap + 1)
  else ((a.arg ap).toInt, ap + 1)

/-- `handle_nosign` -/
def handleNosign (a : Args) (qualifier : Byte) (ap : ℕ) : ℤ × ℕ :=
  if qualifier = ascii 'L' then (a.longlong ap, ap + 2)
  else if qualifier = ascii 'l' then ((a.arg ap).toNat, ap + 1)
  else if qualifier = ascii 'h' then (((a.arg ap).setWidth 16).toNat, ap + 1)
  else if qualifier = ascii 'H' then (((a.arg ap).setWidth 8).toNat, ap + 1)
  else if qualifier = ascii 'z' then ((a.arg ap).toNat, ap + 1)
  else if qualifier = ascii 't' then ((a.arg ap).toInt, ap + 1)
  else ((a.arg ap).toNat, ap + 1)

/-- What a directive does: the bytes, how often it counts `len` down, `width`, and the next argument. -/
structure Effect where
  text : List Byte
  counted : ℕ
  width : ℤ
  ap : ℕ

/-- `handle_number`, where `num` is a `long long`. -/
def handleNumber (c : Conv) (flag : Flags) (base : ℕ) (num : ℤ × ℕ) : Option Effect :=
  (number (num.1 % 2 ^ 64).toNat flag base c.width c.precesion).map fun text => ⟨text, 0, c.width, num.2⟩

/-- `case 'c'` -/
def handleChar (a : Args) (c : Conv) (ap : ℕ) : Effect :=
  let (before, width) := if ¬ c.flag.left then padGt (ascii ' ') c.width else ([], c.width)
  let (after, width) := padGt (ascii ' ') width
  ⟨before ++ (a.arg ap).setWidth 8 :: after, 1, width, ap + 1⟩

/-- `for (n=0; n<precesion && s[n]; n++);` -/
def strnlenLoop (n precesion : ℤ) : List Byte → ℤ
  | [] => n
  | _ :: s => if n < precesion then strnlenLoop (n + 1) precesion s else n

/-- `"(null)"` -/
def nullString : List Byte := [ascii '(', ascii 'n', ascii 'u', ascii 'l', ascii 'l', ascii ')']

/-- `case 's'` -/
def handleString (a : Args) (c : Conv) (ap : ℕ) : Effect :=
  let s := if a.arg ap = 0 then nullString else a.str (a.arg ap)
  let n := if ¬ c.dot then wrap s.length else strnlenLoop 0 c.precesion s
  let width := wrap (c.width - n)
  let (before, width) := if ¬ c.flag.left ∧ 0 < width then padPost (ascii ' ') width else ([], width)
  let (after, width) := if c.flag.left ∧ 0 < width then padPost (ascii ' ') width else ([], width)
  ⟨before ++ s.take n.toNat ++ after, n.toNat, width, ap + 1⟩

/-- The rest of the `switch`. -/
def convert (a : Args) (c : Conv) (ch : Byte) (ap : ℕ) : Option Effect :=
  if ch = ascii '%' then some ⟨[ascii '%'], 1, c.width, ap⟩
  else if ch = ascii '*' then some ⟨[], 1, if c.dot then c.width else (a.arg ap).toInt, ap + 1⟩
  else if ch = ascii 'c' then some (handleChar a c ap)
  else if ch = ascii 's' then some (handleString a c ap)
  else if ch = ascii 'i' ∨ ch = ascii 'd' then
    handleNumber c { c.flag with sign := true } 10 (handleSign a c.qualifier ap)
  else if ch = ascii 'p' then handleNumber c c.flag 16 ((a.arg ap).toNat, ap + 1)
  else if ch = ascii 'o' then handleNumber c c.flag 8 (handleNosign a c.qualifier ap)
  else if ch = ascii 'u' then handleNumber c c.flag 10 (handleNosign a c.qualifier ap)
  else if ch = ascii 'x' then handleNumber c { c.flag with small := true } 16 (handleNosign a c.qualifier ap)
  else if ch = ascii 'X' then handleNumber c c.flag 16 (handleNosign a c.qualifier ap)
  else some ⟨[], 0, c.width, ap⟩

/-- How `vsnprintf` ends: with these bytes and a NUL, with a read behind the format, or not at all. -/
inductive Outcome where
  | done (out : List Byte)
  | overread
  | endless
deriving DecidableEq

theorem length_reswitch {c c' : Conv} {fmt fmt' : List Byte} {ch : Byte} (h : reswitch c fmt = some (c', ch, fmt')) :
    fmt'.length < fmt.length := by
  induction c, fmt using reswitch.induct with
  | case1 c => rw [reswitch] at h; cases h
  | case2 c ch' fmt c'' hflag ih =>
      rw [reswitch, hflag] at h
      exact (ih h).trans (Nat.lt_succ_self _)
  | case3 c ch' fmt hflag hdigit n ih =>
      rw [reswitch, hflag] at h
      dsimp only at h
      rw [if_pos hdigit] at h
      exact (ih h).trans_le ((length_digitsLoop _ _).trans (Nat.le_succ _))
  | case4 c ch' fmt hflag hdigit =>
      rw [reswitch, hflag] at h
      dsimp only at h
      rw [if_neg hdigit] at h
      cases h
      exact Nat.lt_succ_self _

/-- The loop of `vsnprintf`. -/
def vsnprintfLoop (a : Args) (len : ℕ) (ap : ℕ) (width : ℤ) (out : List Byte) : (fmt : List Byte) → Outcome
  | [] => .done out
  | ch :: fmt =>
      if len = 0 then .done out
      else if ch ≠ ascii '%' then vsnprintfLoop a (len - 1) ap width (out ++ [ch]) fmt
      else
        match _h : reswitch ⟨Flags.none, width, 0, false, 0⟩ fmt with
        | none => .overread
        | some (c, ch, fmt') =>
            match convert a c ch ap with
            | none => .endless
            | some e =>
                vsnprintfLoop a ((len + (2 ^ 32 - e.counted % 2 ^ 32)) % 2 ^ 32) e.ap e.width (out ++ e.text) fmt'
termination_by fmt => fmt.length
decreasing_by
  · exact Nat.lt_succ_self _
  · exact (length_reswitch _h).trans (Nat.lt_succ_self _)

/-- `vsnprintf` -/
def vsnprintf (a : Args) (size : BitVec 32) (fmt : List Byte) : Outcome := vsnprintfLoop a size.toNat 0 0 [] fmt

section

variable {a : Args} {len ap : ℕ} {width : ℤ} {out fmt : List Byte}

theorem vsnprintfLoop_zero : vsnprintfLoop a 0 ap width out fmt = .done out := by
  cases fmt with
  | nil => rw [vsnprintfLoop]
  | cons ch fmt => rw [vsnprintfLoop, if_pos rfl]

theorem vsnprintfLoop_text {ch : Byte} (hlen : len ≠ 0) (hch : ch ≠ ascii '%') :
    vsnprintfLoop a len ap width out (ch :: fmt) = vsnprintfLoop a (len - 1) ap width (out ++ [ch]) fmt := by
  rw [vsnprintfLoop, if_neg hlen, if_pos hch]

/-- A directive that the NUL cuts off. -/
theorem vsnprintfLoop_cut (hlen : len ≠ 0) (h : reswitch ⟨Flags.none, width, 0, false, 0⟩ fmt = none) :
    vsnprintfLoop a len ap width out (ascii '%' :: fmt) = .overread := by
  rw [vsnprintfLoop, if_neg hlen, if_neg (not_not.mpr rfl)]
  split
  · rfl
  · rename_i hsome
    rw [h] at hsome
    cases hsome

theorem vsnprintfLoop_conv {c : Conv} {ch : Byte} {fmt' : List Byte} (hlen : len ≠ 0)
    (h : reswitch ⟨Flags.none, width, 0, false, 0⟩ fmt = some (c, ch, fmt')) :
    vsnprintfLoop a len ap width out (ascii '%' :: fmt) =
      match convert a c ch ap with
      | none => .endless
      | some e =>
          vsnprintfLoop a ((len + (2 ^ 32 - e.counted % 2 ^ 32)) % 2 ^ 32) e.ap e.width (out ++ e.text) fmt' := by
  rw [vsnprintfLoop, if_neg hlen, if_neg (not_not.mpr rfl)]
  split
  · rename_i hnone
    rw [h] at hnone
    cases hnone
  · rename_i hsome
    rw [h] at hsome
    cases hsome
    rfl

end

/-! ## How much is printed -/

/-- At most `size` bytes are written, the NUL included, none behind the format is read, and it ends. -/
def Safe (o : Outcome) (size : ℕ) : Prop := ∃ out, o = .done out ∧ out.length + 1 ≤ size

/-- How often `while (--width >= 0)` goes round: `width` times, or not at all, unless `width` is the lowest `int`. -/
def padCount (width : ℤ) : ℕ := (wrap (width - 1) + 1).toNat

/-- What that loop leaves in `width`. -/
def padEnd (width : ℤ) : ℤ := if 0 ≤ wrap (width - 1) then -1 else wrap (width - 1)

/-- How often `while (--width > 0)` goes round. -/
def padGtCount (width : ℤ) : ℕ := (wrap (width - 1)).toNat

def padGtEnd (width : ℤ) : ℤ := if 0 < wrap (width - 1) then 0 else wrap (width - 1)

section

variable {width : ℤ} {c : Byte}

theorem wrap_of_mem (hlow : -2 ^ 31 ≤ width) (hhigh : width < 2 ^ 31) : wrap width = width := by
  unfold wrap
  omega

theorem wrap_wrap_sub (x y : ℤ) : wrap (wrap x - y) = wrap (x - y) := by
  unfold wrap
  omega

theorem padGe_eq (c : Byte) (width : ℤ) : padGe c width = (List.replicate (padCount width) c, padEnd width) := by
  induction width using padGe.induct with
  | case1 width hpos ih =>
      have hsub : wrap (wrap (width - 1) - 1) = wrap (width - 1) - 1 := by
        unfold wrap at *
        omega
      have hcount : padCount width = padCount (wrap (width - 1)) + 1 := by
        rw [padCount, padCount, hsub]
        omega
      have hend : padEnd width = padEnd (wrap (width - 1)) := by
        rw [padEnd, padEnd, if_pos hpos, hsub]
        split_ifs
        · rfl
        · omega
      rw [padGe, if_pos hpos, ih, hcount, List.replicate_succ, hend]
  | case2 width hneg =>
      have hcount : padCount width = 0 := by
        rw [padCount]
        omega
      rw [padGe, if_neg hneg, hcount, padEnd, if_neg hneg]
      rfl

theorem padGt_eq (c : Byte) (width : ℤ) : padGt c width = (List.replicate (padGtCount width) c, padGtEnd width) := by
  induction width using padGt.induct with
  | case1 width hpos ih =>
      have hsub : wrap (wrap (width - 1) - 1) = wrap (width - 1) - 1 := by
        unfold wrap at *
        omega
      have hcount : padGtCount width = padGtCount (wrap (width - 1)) + 1 := by
        rw [padGtCount, padGtCount, hsub]
        omega
      have hend : padGtEnd width = padGtEnd (wrap (width - 1)) := by
        rw [padGtEnd, padGtEnd, if_pos hpos, hsub]
        split_ifs
        · rfl
        · omega
      rw [padGt, if_pos hpos, ih, hcount, List.replicate_succ, hend]
  | case2 width hneg =>
      have hcount : padGtCount width = 0 := by
        rw [padGtCount]
        omega
      rw [padGt, if_neg hneg, hcount, padGtEnd, if_neg hneg]
      rfl

theorem padPost_eq (c : Byte) (hpos : 0 < width) : padPost c width = (List.replicate width.toNat c, -1) := by
  induction width using padPost.induct with
  | case1 width hpos' ih =>
      have hcount : width.toNat = (width - 1).toNat + 1 := by omega
      rw [padPost, if_pos hpos', hcount, List.replicate_succ]
      rcases eq_or_lt_of_le (Int.add_one_le_of_lt hpos') with hone | hmore
      · have hzero : width - 1 = 0 := by omega
        rw [hzero, padPost, if_neg (lt_irrefl 0)]
        rfl
      · rw [ih (by omega)]
  | case2 width hneg => exact absurd hpos hneg

theorem zeroLoop_eq (i precision : ℤ) : zeroLoop i precision = List.replicate (precision - i).toNat (ascii '0') := by
  induction precision using zeroLoop.induct i with
  | case1 precision hle ih =>
      have hcount : (precision - i).toNat = (precision - 1 - i).toNat + 1 := by omega
      rw [zeroLoop, if_pos hle, ih, hcount, List.replicate_succ]
  | case2 precision hgt =>
      have hcount : (precision - i).toNat = 0 := by omega
      rw [zeroLoop, if_neg hgt, hcount]
      rfl

end

/-- The bytes of a number without padding. -/
def bodyLen (num : ℕ) (flags : Flags) (base : ℕ) (precision : ℤ) : ℤ :=
  (signOf num flags).1.length + (prefixOf flags base).length +
    max ((tmpDigits (signOf num flags).2 base).length : ℤ) precision

/-- The padding of a number that is not padded on the right, for what is left of `width`. -/
def padLen (flags : Flags) (width : ℤ) : ℕ :=
  if flags.zeropad then padCount width else padCount width + padCount (padEnd width)

/-- The bytes of a number, if there is nothing to be padded on the right. -/
def numberLen (num : ℕ) (flags : Flags) (base : ℕ) (width precision : ℤ) : Option ℕ :=
  let body := bodyLen num flags base precision
  if flags.left then if 0 ≤ wrap (width - body) then none else some body.toNat
  else some (body.toNat + padLen flags (wrap (width - body)))

theorem padEnd_neg (width : ℤ) : ¬ 0 ≤ padEnd width := by
  rw [padEnd]
  split_ifs with h
  · decide
  · exact h

/-- What `number` prints, piece by piece. -/
theorem number_eq (num : ℕ) (flags : Flags) (base : ℕ) (width precision : ℤ) :
    number num flags base width precision =
      let tmp := tmpDigits (signOf num flags).2 base
      let w := wrap (width - bodyLen num flags base precision)
      let zeros := List.replicate (precision - tmp.length).toNat (ascii '0')
      let digits := zeros ++ (tmp.map (digitByte flags)).reverse
      if flags.left then
        if 0 ≤ w then none else some ((signOf num flags).1 ++ prefixOf flags base ++ digits)
      else if flags.zeropad then
        some ((signOf num flags).1 ++ prefixOf flags base ++ List.replicate (padCount w) (ascii '0') ++ digits)
      else
        some (List.replicate (padCount w) (ascii ' ') ++ (signOf num flags).1 ++ prefixOf flags base ++
          List.replicate (padCount (padEnd w)) (ascii ' ') ++ digits) := by
  have hmax : (if precision < ((tmpDigits (signOf num flags).2 base).length : ℤ) then
      ((tmpDigits (signOf num flags).2 base).length : ℤ) else precision) =
      max ((tmpDigits (signOf num flags).2 base).length : ℤ) precision := by
    split_ifs <;> omega
  have hw : wrap (wrap (wrap (width - (signOf num flags).1.length) - (prefixOf flags base).length) -
      max ((tmpDigits (signOf num flags).2 base).length : ℤ) precision) =
      wrap (width - bodyLen num flags base precision) := by
    rw [wrap_wrap_sub, sub_sub, wrap_wrap_sub, bodyLen, sub_sub, add_assoc]
  have hzeros : (max ((tmpDigits (signOf num flags).2 base).length : ℤ) precision -
      (tmpDigits (signOf num flags).2 base).length).toNat =
      (precision - (tmpDigits (signOf num flags).2 base).length).toNat := by omega
  unfold number
  simp only [hmax, hw, zeroLoop_eq, hzeros, padGe_eq]
  cases hleft : flags.left
  · cases hzero : flags.zeropad
    · simp [padEnd_neg]
    · simp [padEnd_neg]
      rw [List.replicate_add, List.append_assoc]
  · simp

theorem length_number (num : ℕ) (flags : Flags) (base : ℕ) (width precision : ℤ) :
    (number num flags base width precision).map List.length = numberLen num flags base width precision := by
  rw [number_eq, numberLen]
  have hbody : (bodyLen num flags base precision).toNat = (signOf num flags).1.length + (prefixOf flags base).length +
      ((precision - (tmpDigits (signOf num flags).2 base).length).toNat +
        (tmpDigits (signOf num flags).2 base).length) := by
    rw [bodyLen]
    omega
  dsimp only
  rw [padLen]
  split_ifs
  · rfl
  · rw [Option.map_some, hbody]
    simp only [List.length_append, List.length_replicate, List.length_reverse, List.length_map]
  · rw [Option.map_some, hbody]
    simp only [List.length_append, List.length_replicate, List.length_reverse, List.length_map]
    congr 1
    omega
  · rw [Option.map_some, hbody]
    simp only [List.length_append, List.length_replicate, List.length_reverse, List.length_map]
    congr 1
    omega

/-- The bytes, the count, `width` and the next argument of a directive. -/
structure Size where
  bytes : ℕ
  counted : ℕ
  width : ℤ
  ap : ℕ

def Effect.size (e : Effect) : Size := ⟨e.text.length, e.counted, e.width, e.ap⟩

def numberSize (c : Conv) (flag : Flags) (base : ℕ) (num : ℤ × ℕ) : Option Size :=
  (numberLen (num.1 % 2 ^ 64).toNat flag base c.width c.precesion).map fun bytes => ⟨bytes, 0, c.width, num.2⟩

/-- One byte, or as many as `width` says. -/
def charSize (c : Conv) (ap : ℕ) : Size :=
  if c.flag.left then ⟨1 + padGtCount c.width, 1, padGtEnd c.width, ap + 1⟩
  else ⟨padGtCount c.width + 1 + padGtCount (padGtEnd c.width), 1, padGtEnd (padGtEnd c.width), ap + 1⟩

/-- How much of a string is printed. -/
def stringLen (c : Conv) (s : List Byte) : ℤ := if c.dot then min (s.length : ℤ) (max 0 c.precesion) else wrap s.length

/-- The string, or as many bytes as `width` says. -/
def stringSize (a : Args) (c : Conv) (ap : ℕ) : Size :=
  let s := if a.arg ap = 0 then nullString else a.str (a.arg ap)
  let n := stringLen c s
  let width := wrap (c.width - n)
  ⟨n.toNat + width.toNat, n.toNat, if 0 < width then -1 else width, ap + 1⟩

/-- `convert`, for the sizes only. -/
def convertSize (a : Args) (c : Conv) (ch : Byte) (ap : ℕ) : Option Size :=
  if ch = ascii '%' then some ⟨1, 1, c.width, ap⟩
  else if ch = ascii '*' then some ⟨0, 1, if c.dot then c.width else (a.arg ap).toInt, ap + 1⟩
  else if ch = ascii 'c' then some (charSize c ap)
  else if ch = ascii 's' then some (stringSize a c ap)
  else if ch = ascii 'i' ∨ ch = ascii 'd' then
    numberSize c { c.flag with sign := true } 10 (handleSign a c.qualifier ap)
  else if ch = ascii 'p' then numberSize c c.flag 16 ((a.arg ap).toNat, ap + 1)
  else if ch = ascii 'o' then numberSize c c.flag 8 (handleNosign a c.qualifier ap)
  else if ch = ascii 'u' then numberSize c c.flag 10 (handleNosign a c.qualifier ap)
  else if ch = ascii 'x' then numberSize c { c.flag with small := true } 16 (handleNosign a c.qualifier ap)
  else if ch = ascii 'X' then numberSize c c.flag 16 (handleNosign a c.qualifier ap)
  else some ⟨0, 0, c.width, ap⟩

section

variable (a : Args) (c : Conv) (ap : ℕ)

theorem size_handleNumber (flag : Flags) (base : ℕ) (num : ℤ × ℕ) :
    (handleNumber c flag base num).map Effect.size = numberSize c flag base num := by
  rw [handleNumber, numberSize, ← length_number, Option.map_map, Option.map_map]
  rfl

theorem size_handleChar : (handleChar a c ap).size = charSize c ap := by
  rw [handleChar, charSize]
  cases c.flag.left
  · simp [padGt_eq, Effect.size, add_assoc, add_comm]
    omega
  · simp [padGt_eq, Effect.size, add_comm]

theorem strnlenLoop_eq (n precesion : ℤ) (s : List Byte) :
    strnlenLoop n precesion s = n + min (s.length : ℤ) (max 0 (precesion - n)) := by
  induction s generalizing n with
  | nil =>
      rw [strnlenLoop, List.length_nil]
      omega
  | cons x s ih =>
      rw [strnlenLoop, List.length_cons]
      split_ifs
      · rw [ih]
        omega
      · omega

theorem stringLen_eq (s : List Byte) :
    (if ¬ c.dot = true then wrap s.length else strnlenLoop 0 c.precesion s) = stringLen c s := by
  rw [stringLen, strnlenLoop_eq, sub_zero, zero_add]
  by_cases hdot : c.dot = true
  · rw [if_neg (not_not.mpr hdot), if_pos hdot]
  · rw [if_pos hdot, if_neg hdot]

theorem stringLen_le (s : List Byte) : (stringLen c s).toNat ≤ s.length := by
  rw [stringLen]
  unfold wrap
  split_ifs
  · omega
  · omega

theorem size_handleString : (handleString a c ap).size = stringSize a c ap := by
  unfold handleString stringSize
  generalize (if a.arg ap = 0 then nullString else a.str (a.arg ap)) = s
  have hle := stringLen_le c s
  dsimp only
  rw [stringLen_eq]
  generalize stringLen c s = n at hle ⊢
  generalize wrap (c.width - n) = width
  have htake : (s.take n.toNat).length = n.toNat := by
    rw [List.length_take]
    omega
  by_cases hpos : 0 < width
  · rw [if_pos hpos]
    cases hleft : c.flag.left
    · rw [if_pos ⟨by decide, hpos⟩, padPost_eq _ hpos, if_neg (fun h => by cases h.1)]
      simp only [Effect.size, List.length_append, List.length_replicate, List.length_nil, htake]
      rw [add_zero, add_comm]
    · rw [if_neg (fun h => h.1 rfl), if_pos ⟨rfl, hpos⟩, padPost_eq _ hpos]
      simp only [Effect.size, List.length_append, List.length_replicate, List.length_nil, htake]
      rw [zero_add]
  · rw [if_neg hpos, if_neg (fun h => hpos h.2), if_neg (fun h => hpos h.2)]
    have hzero : width.toNat = 0 := by omega
    simp only [Effect.size, List.length_append, List.length_nil, htake, hzero]
    rw [zero_add]

theorem size_convert (ch : Byte) : (convert a c ch ap).map Effect.size = convertSize a c ch ap := by
  unfold convert convertSize
  simp only [apply_ite (Option.map Effect.size), size_handleNumber, Option.map_some, size_handleChar, size_handleString]
  rfl

end

/-! ## When it stays inside -/

/-- What a part of the format takes: bytes, or it is a number that is padded on the right, or a directive that the NUL
cuts off. -/
inductive Item where
  | text (bytes counted : ℕ)
  | endless
  | cutOff

def Item.bytes : Item → ℕ
  | text bytes _ => bytes
  | endless => 0
  | cutOff => 0

def Item.counted : Item → ℕ
  | text _ counted => counted
  | endless => 0
  | cutOff => 0

/-- Whether it is text. -/
def Item.IsText (x : Item) : Prop := x ≠ endless ∧ x ≠ cutOff

/-- The parts of a format. -/
def items (a : Args) (ap : ℕ) (width : ℤ) : (fmt : List Byte) → List Item
  | [] => []
  | ch :: fmt =>
      if ch ≠ ascii '%' then .text 1 1 :: items a ap width fmt
      else
        match _h : reswitch ⟨Flags.none, width, 0, false, 0⟩ fmt with
        | none => [.cutOff]
        | some (c, ch, fmt') =>
            match convertSize a c ch ap with
            | none => [.endless]
            | some e => .text e.bytes e.counted :: items a e.ap e.width fmt'
termination_by fmt => fmt.length
decreasing_by
  · exact Nat.lt_succ_self _
  · exact (length_reswitch _h).trans (Nat.lt_succ_self _)

/-- Up to the end of the format, or to where as many bytes are counted as there are in the buffer, there is text only,
which leaves a byte for the NUL. -/
def Fits (l : List Item) (size : ℕ) : Prop :=
  ∃ k ≤ l.length, (∀ x ∈ l.take k, x.IsText) ∧ ((l.take k).map Item.bytes).sum < size ∧
    (k = l.length ∨ ((l.take k).map Item.counted).sum % 2 ^ 32 = size % 2 ^ 32)

/-- Where no more is counted than printed, as it is without `*`, all of the format must fit. -/
theorem fits_iff {l : List Item} {size : ℕ} (hsize : size < 2 ^ 32) (hcount : ∀ x ∈ l, x.counted ≤ x.bytes) :
    Fits l size ↔ (∀ x ∈ l, x.IsText) ∧ (l.map Item.bytes).sum < size := by
  constructor
  · rintro ⟨k, hk, htext, hlt, hend⟩
    have hle : ((l.take k).map Item.counted).sum ≤ ((l.take k).map Item.bytes).sum :=
      List.sum_le_sum fun x hx => hcount x (List.mem_of_mem_take hx)
    have hall : k = l.length := hend.resolve_right fun hmod => by omega
    rw [hall, List.take_length] at htext hlt
    exact ⟨htext, hlt⟩
  · rintro ⟨htext, hlt⟩
    refine ⟨l.length, le_rfl, ?_, ?_, .inl rfl⟩
    · rwa [List.take_length]
    · rwa [List.take_length]

/-- The same from some place on, with `len` bytes not counted and `used` bytes written. -/
def FitsFrom (l : List Item) (len used size : ℕ) : Prop :=
  ∃ k ≤ l.length, (∀ x ∈ l.take k, x.IsText) ∧ used + ((l.take k).map Item.bytes).sum < size ∧
    (k = l.length ∨ ((l.take k).map Item.counted).sum % 2 ^ 32 = len)

section

variable {l : List Item} {x : Item} {len used size : ℕ}

theorem fitsFrom_nil : FitsFrom [] len used size ↔ used < size := by
  constructor
  · rintro ⟨k, -, -, hlt, -⟩
    rw [List.take_nil, List.map_nil, List.sum_nil] at hlt
    exact hlt
  · intro h
    exact ⟨0, le_rfl, List.forall_mem_nil _, h, .inl rfl⟩

theorem fitsFrom_zero : FitsFrom l 0 used size ↔ used < size := by
  constructor
  · rintro ⟨k, -, -, hlt, -⟩
    omega
  · intro h
    refine ⟨0, Nat.zero_le _, ?_, ?_, .inr ?_⟩
    · rw [List.take_zero]
      exact List.forall_mem_nil _
    · rwa [List.take_zero]
    · rw [List.take_zero]
      rfl

/-- One part, and then the others. -/
theorem fitsFrom_cons (hpos : len ≠ 0) (hlen : len < 2 ^ 32) :
    FitsFrom (x :: l) len used size ↔
      x.IsText ∧ FitsFrom l ((len + (2 ^ 32 - x.counted % 2 ^ 32)) % 2 ^ 32) (used + x.bytes) size := by
  constructor
  · rintro ⟨k, hk, htext, hlt, hend⟩
    cases k with
    | zero =>
        rw [List.take_zero, List.map_nil, List.sum_nil, List.length_cons] at hend
        omega
    | succ k =>
        rw [List.take_succ_cons] at htext hlt hend
        rw [List.map_cons, List.sum_cons] at hlt hend
        rw [List.length_cons] at hk hend
        refine ⟨htext x List.mem_cons_self, k, by omega, fun y hy => htext y (List.mem_cons_of_mem _ hy), by omega, ?_⟩
        rcases hend with hend | hend
        · exact .inl (by omega)
        · exact .inr (by omega)
  · rintro ⟨hx, k, hk, htext, hlt, hend⟩
    refine ⟨k + 1, Nat.succ_le_succ hk, ?_, ?_, ?_⟩
    · rw [List.take_succ_cons]
      exact List.forall_mem_cons.mpr ⟨hx, htext⟩
    · rw [List.take_succ_cons, List.map_cons, List.sum_cons]
      omega
    · rw [List.take_succ_cons, List.map_cons, List.sum_cons, List.length_cons]
      rcases hend with hend | hend
      · exact .inl (by omega)
      · exact .inr (by omega)

theorem safe_done (out : List Byte) : Safe (.done out) size ↔ out.length < size := by
  constructor
  · rintro ⟨out', heq, hle⟩
    cases heq
    exact hle
  · intro h
    exact ⟨out, rfl, h⟩

theorem not_safe_overread : ¬ Safe .overread size := by
  rintro ⟨out, heq, -⟩
  cases heq

theorem not_safe_endless : ¬ Safe .endless size := by
  rintro ⟨out, heq, -⟩
  cases heq

/-- From any place in the format on. -/
theorem safe_vsnprintfLoop_iff (a : Args) (hlen : len < 2 ^ 32) (ap : ℕ) (width : ℤ) (out fmt : List Byte) :
    Safe (vsnprintfLoop a len ap width out fmt) size ↔ FitsFrom (items a ap width fmt) len out.length size := by
  induction hn : fmt.length using Nat.strong_induction_on generalizing len ap width out fmt with
  | _ n ih =>
  subst hn
  by_cases hzero : len = 0
  · rw [hzero, vsnprintfLoop_zero, safe_done, fitsFrom_zero]
  cases fmt with
  | nil => rw [vsnprintfLoop, items, safe_done, fitsFrom_nil]
  | cons ch fmt =>
      rw [items]
      by_cases hch : ch ≠ ascii '%'
      · have hrest : (len + (2 ^ 32 - 1 % 2 ^ 32)) % 2 ^ 32 = len - 1 := by omega
        rw [vsnprintfLoop_text hzero hch, if_pos hch, fitsFrom_cons hzero hlen]
        dsimp only [Item.counted, Item.bytes]
        rw [hrest, ih _ (Nat.lt_succ_self _) (by omega) _ _ _ _ rfl, List.length_append]
        exact (and_iff_right ⟨by simp, by simp⟩).symm
      · rw [if_neg hch]
        obtain rfl := not_not.mp hch
        split
        · rename_i hcut
          rw [vsnprintfLoop_cut hzero hcut]
          refine iff_of_false not_safe_overread fun h => ?_
          exact ((fitsFrom_cons hzero hlen).mp h).1.2 rfl
        · rename_i c ch' fmt' hsome
          rw [vsnprintfLoop_conv hzero hsome, ← size_convert]
          cases hconv : convert a c ch' ap with
          | none =>
              refine iff_of_false not_safe_endless fun h => ?_
              exact ((fitsFrom_cons hzero hlen).mp h).1.1 rfl
          | some e =>
              have hshort := (length_reswitch hsome).trans (Nat.lt_succ_self _)
              dsimp only [Option.map_some]
              rw [fitsFrom_cons hzero hlen, ih _ hshort (Nat.mod_lt _ (by decide)) _ _ _ _ rfl, List.length_append]
              exact (and_iff_right ⟨by simp, by simp⟩).symm

end

/-- `vsnprintf` stays inside of a buffer of `size` bytes and of its format, and returns, if and only if the parts of the
format fit. -/
theorem vsnprintf_safeIff (a : Args) (size : BitVec 32) (fmt : List Byte) :
    Safe (vsnprintf a size fmt) size.toNat ↔ Fits (items a 0 0 fmt) size.toNat := by
  have hfits : Fits (items a 0 0 fmt) size.toNat ↔ FitsFrom (items a 0 0 fmt) size.toNat 0 size.toNat := by
    simp only [Fits, FitsFrom, zero_add, Nat.mod_eq_of_lt size.isLt]
  rw [hfits]
  exact safe_vsnprintfLoop_iff a size.isLt 0 0 [] fmt

/-- Zeros as arguments, and no strings. -/
def noArgs : Args := ⟨fun _ => 0, fun _ => []⟩

/-- `"ab"` takes three bytes of a buffer of two, `"%"` leads behind the format, and `"%-9d"` to an endless loop. -/
theorem vsnprintf_unsafe :
    ¬ Safe (vsnprintf noArgs 2 [ascii 'a', ascii 'b']) 2 ∧ ¬ Safe (vsnprintf noArgs 64 [ascii '%']) 64 ∧
      ¬ Safe (vsnprintf noArgs 64 [ascii '%', ascii '-', ascii '9', ascii 'd']) 64 := by
  have hab : vsnprintf noArgs 2 [ascii 'a', ascii 'b'] = .done [ascii 'a', ascii 'b'] := by
    simp [vsnprintf, vsnprintfLoop, ascii]
  have hcut : vsnprintf noArgs 64 [ascii '%'] = .overread :=
    vsnprintfLoop_cut (by decide) (by rw [reswitch])
  have hpad : vsnprintf noArgs 64 [ascii '%', ascii '-', ascii '9', ascii 'd'] = .endless := by
    have hdir : reswitch ⟨Flags.none, 0, 0, false, 0⟩ [ascii '-', ascii '9', ascii 'd'] =
        some (⟨⟨false, true, false, false, false, false, false⟩, 9, 0, false, 0⟩, ascii 'd', []) := by
      simp [reswitch, Conv.flagChar, isDigit, digitsLoop, ascii, Flags.none]
    have hnumber : number 0 ⟨true, true, false, false, false, false, false⟩ 10 9 0 = none := by
      rw [number_eq]
      decide
    have hconv : convert noArgs ⟨⟨false, true, false, false, false, false, false⟩, 9, 0, false, 0⟩ (ascii 'd') 0 =
        none := by
      simp [convert, handleNumber, handleSign, noArgs, ascii, hnumber]
    rw [vsnprintf, vsnprintfLoop_conv (by decide) hdir, hconv]
  rw [hab, hcut, hpad]
  refine ⟨?_, not_safe_overread, not_safe_endless⟩
  rw [safe_done]
  decide

end Shaunos.Printf
