import Shaunos.Kernel.Vsnprintf

/-!
# Formatted output by the standard

Reference: `lib/vsprintf.c` (`vsnprintf`, `number`).

A format is made of text, `%%` and directives: flags, a width, a precision, a qualifier and a conversion. The standard
says what one directive prints, from its arguments alone. `%p` is left to the implementation, and prints here what `%X`
prints.

* `reswitch_directive`, `reswitch_star` — what `vsnprintf` reads of a directive;
* `number_iff` — when a number is printed as the standard says;
* `vsnprintf_c99Iff` — when all of a format is.
-/

namespace Shaunos.Printf

/-! ## Formats -/

inductive FlagChar where
  | minus
  | plus
  | space
  | sharp
  | zero
deriving DecidableEq

def FlagChar.byte : FlagChar → Byte
  | minus => ascii '-'
  | plus => ascii '+'
  | space => ascii ' '
  | sharp => ascii '#'
  | zero => ascii '0'

def digitChar (d : ℕ) : Byte := BitVec.ofNat 8 (48 + d)

/-- A number that is written behind other digits. -/
def readDigits (n : ℕ) (l : List (Fin 10)) : ℕ := l.foldl (fun n (d : Fin 10) => n * 10 + d) n

/-- The digits of a width, of which the first is not 0. It is an `int`. -/
structure WidthNum where
  head : Fin 9
  tail : List (Fin 10)
  lt : readDigits (head + 1) tail < 2 ^ 31

def WidthNum.value (w : WidthNum) : ℕ := readDigits (w.head + 1) w.tail

def WidthNum.bytes (w : WidthNum) : List Byte := digitChar (w.head + 1) :: w.tail.map fun d : Fin 10 => digitChar d

/-- The digits of a precision, which can be none. -/
structure PrecNum where
  digits : List (Fin 10)
  lt : readDigits 0 digits < 2 ^ 31

def PrecNum.value (p : PrecNum) : ℕ := readDigits 0 p.digits

def PrecNum.bytes (p : PrecNum) : List Byte := p.digits.map fun d : Fin 10 => digitChar d

inductive Width where
  | none
  | num (w : WidthNum)
  | star

def Width.bytes : Width → List Byte
  | none => []
  | num w => w.bytes
  | star => [ascii '*']

inductive Precision where
  | none
  | num (p : PrecNum)
  | star

def Precision.bytes : Precision → List Byte
  | none => []
  | num p => ascii '.' :: p.bytes
  | star => [ascii '.', ascii '*']

inductive Qualifier where
  | none
  | hh
  | h
  | l
  | ll
  | z
  | t
deriving DecidableEq

def Qualifier.bytes : Qualifier → List Byte
  | none => []
  | hh => [ascii 'h', ascii 'h']
  | h => [ascii 'h']
  | l => [ascii 'l']
  | ll => [ascii 'l', ascii 'l']
  | z => [ascii 'z']
  | t => [ascii 't']

/-- The conversions of integers. -/
inductive IntConv where
  | d
  | i
  | u
  | o
  | x
  | X
deriving DecidableEq

def IntConv.byte : IntConv → Byte
  | d => ascii 'd'
  | i => ascii 'i'
  | u => ascii 'u'
  | o => ascii 'o'
  | x => ascii 'x'
  | X => ascii 'X'

inductive Conversion where
  | c
  | s
  | p
  | int (q : Qualifier) (v : IntConv)
deriving DecidableEq

def Conversion.byte : Conversion → Byte
  | c => ascii 'c'
  | s => ascii 's'
  | p => ascii 'p'
  | int _ v => v.byte

def Conversion.qual : Conversion → Qualifier
  | c => .none
  | s => .none
  | p => .none
  | int q _ => q

structure Directive where
  flags : List FlagChar
  width : Width
  prec : Precision
  conv : Conversion

/-- What is behind the precision. -/
def Conversion.bytes (v : Conversion) : List Byte := v.qual.bytes ++ [v.byte]

/-- A directive behind its `%`. -/
def Directive.bytes (d : Directive) : List Byte :=
  d.flags.map FlagChar.byte ++ (d.width.bytes ++ (d.prec.bytes ++ d.conv.bytes))

inductive Piece where
  | text (b : Byte) (h : b ≠ ascii '%')
  | percent
  | dir (d : Directive)

def Piece.bytes : Piece → List Byte
  | text b _ => [b]
  | percent => [ascii '%', ascii '%']
  | dir d => ascii '%' :: d.bytes

/-- The bytes of a format. -/
def formatBytes (fmt : List Piece) : List Byte := fmt.flatMap Piece.bytes

/-! ## What `vsnprintf` reads of a directive -/

/-- The flags that are set. -/
def Flags.add (f : Flags) : FlagChar → Flags
  | .minus => { f with left := true }
  | .plus => { f with plus := true }
  | .space => { f with space := true }
  | .sharp => { f with special := true }
  | .zero => { f with zeropad := true }

def Qualifier.code : Qualifier → Byte
  | none => 0
  | hh => ascii 'H'
  | h => ascii 'h'
  | l => ascii 'l'
  | ll => ascii 'L'
  | z => ascii 'z'
  | t => ascii 't'

/-- A `0` in front of a precision is read as a flag. -/
def Precision.zeropad : Precision → Bool
  | none => false
  | num p => p.digits.head? = some 0
  | star => false

def Precision.value : Precision → ℕ
  | none => 0
  | num p => p.value
  | star => 0

def Precision.dot : Precision → Bool
  | none => false
  | num _ => true
  | star => true

/-- The width that is in force, where `width` was left by the directives before. -/
def Width.force (w : Width) (width : ℤ) : ℤ :=
  match w with
  | none => width
  | num w => w.value
  | star => width

/-- What `vsnprintf` makes of a directive. -/
def Directive.read (d : Directive) (width : ℤ) : Conv :=
  let flag := d.flags.foldl Flags.add Flags.none
  { flag := { flag with zeropad := flag.zeropad || d.prec.zeropad }
    width := d.width.force width, precesion := d.prec.value, dot := d.prec.dot, qualifier := d.conv.qual.code }

section

variable {c : Conv} {rest : List Byte}

theorem reswitch_flagChar {c' : Conv} {ch : Byte} (h : c.flagChar ch = some c') :
    reswitch c (ch :: rest) = reswitch c' rest := by
  rw [reswitch, h]

theorem reswitch_flags (l : List FlagChar) :
    reswitch c (l.map FlagChar.byte ++ rest) = reswitch { c with flag := l.foldl Flags.add c.flag } rest := by
  induction l generalizing c with
  | nil => rfl
  | cons f l ih =>
      have hflag : c.flagChar f.byte = some { c with flag := c.flag.add f } := by
        cases f <;> rfl
      rw [List.map_cons, List.cons_append, reswitch_flagChar hflag, ih]
      rfl

/-- The rest does not go on with a digit. -/
def NoDigit (l : List Byte) : Prop := ∀ ch ∈ l.head?, isDigit ch = false

theorem readDigits_mono (n : ℕ) (l : List (Fin 10)) : n ≤ readDigits n l := by
  induction l generalizing n with
  | nil => exact le_rfl
  | cons d l ih =>
      have hle := ih (n * 10 + d)
      rw [readDigits, List.foldl_cons]
      exact le_trans (by omega) hle

theorem toNat_digitChar (d : Fin 10) : (digitChar d).toNat = 48 + d := by
  have hlt := d.isLt
  rw [digitChar, BitVec.toNat_ofNat, Nat.mod_eq_of_lt (by omega)]

theorem isDigit_digitChar (d : Fin 10) : isDigit (digitChar d) = true := by
  revert d
  decide

theorem digitsLoop_eq (l : List (Fin 10)) (n : ℕ) (hlt : readDigits n l < 2 ^ 31) (hrest : NoDigit rest) :
    digitsLoop n ((l.map fun d : Fin 10 => digitChar d) ++ rest) = ((readDigits n l : ℤ), rest) := by
  induction l generalizing n with
  | nil =>
      cases rest with
      | nil => rfl
      | cons ch rest =>
          have hch : isDigit ch = false := hrest ch rfl
          rw [List.map_nil, List.nil_append, digitsLoop, hch]
          rfl
  | cons d l ih =>
      have hd := d.isLt
      have hmono := readDigits_mono (n * 10 + d) l
      rw [readDigits, List.foldl_cons] at hlt
      change readDigits (n * 10 + d) l < 2 ^ 31 at hlt
      have hstep : wrap ((n : ℤ) * 10 + ((digitChar d).toNat - 48)) = ((n * 10 + d : ℕ) : ℤ) := by
        rw [toNat_digitChar, wrap_of_mem (by push_cast; omega) (by push_cast; omega)]
        push_cast
        ring
      rw [List.map_cons, List.cons_append, digitsLoop, isDigit_digitChar, if_pos rfl, hstep, ih _ hlt]
      rfl

theorem flagChar_digit (c : Conv) (h : Fin 9) : c.flagChar (digitChar (h + 1)) = none := by
  fin_cases h <;> rfl

theorem isDigit_head : ∀ h : Fin 9, isDigit (digitChar (h + 1)) = true := by
  decide

/-- A digit that is not 0, and those behind it. -/
theorem reswitch_digits (c : Conv) (h : Fin 9) (l : List (Fin 10)) (hlt : readDigits (h + 1) l < 2 ^ 31)
    (hrest : NoDigit rest) :
    reswitch c (digitChar (h + 1) :: ((l.map fun d : Fin 10 => digitChar d) ++ rest)) =
      reswitch (if c.dot then { c with precesion := readDigits (h + 1) l }
        else { c with width := readDigits (h + 1) l }) rest := by
  have hvalue : ((digitChar (h + 1)).toNat : ℤ) - 48 = ((h + 1 : ℕ) : ℤ) := by
    have hh := h.isLt
    rw [digitChar, BitVec.toNat_ofNat, Nat.mod_eq_of_lt (by omega)]
    push_cast
    ring
  rw [reswitch, flagChar_digit]
  dsimp only
  rw [if_pos (isDigit_head h), hvalue, digitsLoop_eq l _ hlt hrest]

theorem reswitch_width (c : Conv) (w : WidthNum) (hdot : c.dot = false) (hrest : NoDigit rest) :
    reswitch c (w.bytes ++ rest) = reswitch { c with width := w.value } rest := by
  rw [WidthNum.bytes, List.cons_append, reswitch_digits _ _ _ w.lt hrest, hdot]
  rfl

theorem reswitch_prec (c : Conv) (l : List (Fin 10)) (hlt : readDigits 0 l < 2 ^ 31) (hdot : c.dot = true)
    (hzero : c.precesion = 0) (hrest : NoDigit rest) :
    reswitch c ((l.map fun d : Fin 10 => digitChar d) ++ rest) =
      reswitch { c with
        flag := { c.flag with zeropad := c.flag.zeropad || decide (l.head? = some 0) }
        precesion := readDigits 0 l } rest := by
  induction l generalizing c with
  | nil =>
      obtain ⟨flag, width, precesion, dot, qualifier⟩ := c
      obtain rfl : precesion = 0 := hzero
      simp [readDigits]
  | cons d l ih =>
      by_cases hd : d = 0
      · subst hd
        have hflag : c.flagChar (digitChar ((0 : Fin 10) : ℕ)) = some { c with flag := c.flag.add .zero } := rfl
        have hread : readDigits 0 (0 :: l) = readDigits 0 l := rfl
        rw [hread] at hlt ⊢
        have hih := ih { c with flag := c.flag.add .zero } hlt hdot hzero
        rw [List.map_cons, List.cons_append, reswitch_flagChar hflag, hih]
        simp [Flags.add]
      · obtain ⟨h, hh⟩ : ∃ h : Fin 9, (d : ℕ) = h + 1 := by
          have hpos : (d : ℕ) ≠ 0 := fun hz => hd (Fin.ext hz)
          have hlt := d.isLt
          exact ⟨⟨d - 1, by omega⟩, by change (d : ℕ) = (d : ℕ) - 1 + 1; omega⟩
        have hread : readDigits 0 (d :: l) = readDigits (h + 1) l := by
          rw [readDigits, List.foldl_cons, zero_mul, zero_add, hh]
          rfl
        have hhead : decide ((d :: l).head? = some 0) = false := by simp [hd]
        rw [hread] at hlt
        rw [List.map_cons, List.cons_append, hh, reswitch_digits c h l hlt hrest, hdot, if_pos rfl, hread, hhead,
          Bool.or_false]

theorem reswitch_dot (c : Conv) : reswitch c (ascii '.' :: rest) = reswitch { c with dot := true } rest :=
  reswitch_flagChar rfl

theorem reswitch_qual (c : Conv) (q : Qualifier) (hnone : c.qualifier = 0) :
    reswitch c (q.bytes ++ rest) = reswitch { c with qualifier := q.code } rest := by
  obtain ⟨flag, width, precesion, dot, qualifier⟩ := c
  obtain rfl : qualifier = 0 := hnone
  cases q
  · rfl
  · exact (reswitch_flagChar rfl).trans (reswitch_flagChar rfl)
  · exact reswitch_flagChar rfl
  · exact reswitch_flagChar rfl
  · exact (reswitch_flagChar rfl).trans (reswitch_flagChar rfl)
  · exact reswitch_flagChar rfl
  · exact reswitch_flagChar rfl

/-- A character that ends a directive. -/
theorem reswitch_last {c : Conv} {ch : Byte} (hflag : c.flagChar ch = none) (hdigit : isDigit ch = false) :
    reswitch c (ch :: rest) = some (c, ch, rest) := by
  rw [reswitch, hflag]
  dsimp only
  rw [hdigit]
  rfl

theorem flagChar_conv (c : Conv) (v : Conversion) : c.flagChar v.byte = none := by
  cases v with
  | c => rfl
  | s => rfl
  | p => rfl
  | int q v => cases v <;> rfl

theorem isDigit_conv (v : Conversion) : isDigit v.byte = false := by
  cases v with
  | c => rfl
  | s => rfl
  | p => rfl
  | int q v => cases v <;> rfl

theorem reswitch_conv (c : Conv) (v : Conversion) (hnone : c.qualifier = 0) :
    reswitch c (v.bytes ++ rest) = some ({ c with qualifier := v.qual.code }, v.byte, rest) := by
  rw [Conversion.bytes, List.append_assoc, reswitch_qual c v.qual hnone]
  exact reswitch_last (flagChar_conv _ v) (isDigit_conv v)

theorem noDigit_conv (v : Conversion) : NoDigit (v.bytes ++ rest) := by
  intro ch hch
  rw [Conversion.bytes] at hch
  cases hq : v.qual <;> rw [hq] at hch <;> obtain rfl := Option.mem_some.mp hch
  · exact isDigit_conv v
  all_goals rfl

theorem noDigit_prec (p : Precision) (v : Conversion) : NoDigit (p.bytes ++ (v.bytes ++ rest)) := by
  cases p with
  | none => exact noDigit_conv v
  | num p =>
      intro ch hch
      obtain rfl := Option.mem_some.mp hch
      rfl
  | star =>
      intro ch hch
      obtain rfl := Option.mem_some.mp hch
      rfl

theorem reswitch_widthNum (c : Conv) {w : Width} (hstar : w ≠ .star) (hdot : c.dot = false) (hrest : NoDigit rest) :
    reswitch c (w.bytes ++ rest) = reswitch { c with width := w.force c.width } rest := by
  cases w with
  | none => rfl
  | num w => exact reswitch_width c w hdot hrest
  | star => exact absurd rfl hstar

theorem reswitch_precNum (c : Conv) {p : Precision} (hstar : p ≠ .star) (hdot : c.dot = false) (hzero : c.precesion = 0)
    (hrest : NoDigit rest) :
    reswitch c (p.bytes ++ rest) =
      reswitch { c with
        flag := { c.flag with zeropad := c.flag.zeropad || p.zeropad }
        precesion := p.value
        dot := p.dot } rest := by
  cases p with
  | none =>
      obtain ⟨flag, width, precesion, dot, qualifier⟩ := c
      obtain rfl : dot = false := hdot
      obtain rfl : precesion = 0 := hzero
      simp [Precision.bytes, Precision.zeropad, Precision.value, Precision.dot]
  | num p =>
      rw [Precision.bytes, List.cons_append, reswitch_dot]
      exact reswitch_prec { c with dot := true } p.digits p.lt rfl hzero hrest
  | star => exact absurd rfl hstar

/-- What `vsnprintf` reads of a directive without `*`. -/
theorem reswitch_directive {r : List Byte} (d : Directive) (hwidth : d.width ≠ .star) (hprec : d.prec ≠ .star)
    (width : ℤ) :
    reswitch ⟨Flags.none, width, 0, false, 0⟩ (d.bytes ++ r) = some (d.read width, d.conv.byte, r) := by
  rw [Directive.bytes, List.append_assoc, List.append_assoc, List.append_assoc, reswitch_flags,
    reswitch_widthNum _ hwidth rfl (noDigit_prec _ _), reswitch_precNum _ hprec rfl rfl (noDigit_conv _),
    reswitch_conv _ _ rfl]
  rfl

theorem qualifier_ne (q : Qualifier) : ∀ b ∈ q.bytes, b ≠ ascii '%' := by
  cases q <;> decide

theorem intByte_letter (v : IntConv) : ascii 'X' ≤ v.byte := by
  cases v <;> decide

theorem convByte_letter (v : Conversion) : ascii 'X' ≤ v.byte := by
  cases v with
  | c => decide
  | s => decide
  | p => decide
  | int q v => exact intByte_letter v

theorem conv_ne (v : Conversion) : ∀ b ∈ v.bytes, b ≠ ascii '%' := by
  intro b hb
  rcases List.mem_append.mp hb with hb | hb
  · exact qualifier_ne v.qual b hb
  · obtain rfl := List.mem_singleton.mp hb
    intro h
    have hletter := convByte_letter v
    rw [h] at hletter
    exact absurd hletter (by decide)

theorem digitChar_ne : ∀ d : Fin 10, digitChar d ≠ ascii '%' := by
  decide

theorem prec_ne (p : Precision) : ∀ b ∈ p.bytes, b ≠ ascii '%' := by
  cases p with
  | none => exact List.forall_mem_nil _
  | num p =>
      intro b hb
      rcases List.mem_cons.mp hb with rfl | hb
      · decide
      · obtain ⟨d, -, rfl⟩ := List.mem_map.mp hb
        exact digitChar_ne d
  | star => decide

/-- With a `*`, it is at the first one that the directive ends. What is behind it is text. -/
theorem reswitch_star (d : Directive) (hstar : d.width = .star ∨ d.prec = .star) (width : ℤ) :
    ∃ c tail, (∀ rest,
      reswitch ⟨Flags.none, width, 0, false, 0⟩ (d.bytes ++ rest) = some (c, ascii '*', tail ++ rest)) ∧
      ∀ b ∈ tail, b ≠ ascii '%' := by
  by_cases hwidth : d.width = .star
  · refine ⟨⟨d.flags.foldl Flags.add Flags.none, width, 0, false, 0⟩, d.prec.bytes ++ d.conv.bytes, ?_, ?_⟩
    · intro rest
      rw [Directive.bytes, List.append_assoc, List.append_assoc, reswitch_flags, hwidth]
      exact reswitch_last rfl rfl
    · intro b hb
      rcases List.mem_append.mp hb with hb | hb
      · exact prec_ne d.prec b hb
      · exact conv_ne d.conv b hb
  · have hprec : d.prec = .star := hstar.resolve_left hwidth
    refine ⟨⟨d.flags.foldl Flags.add Flags.none, d.width.force width, 0, true, 0⟩, d.conv.bytes, ?_, conv_ne d.conv⟩
    intro rest
    have hnd : NoDigit (d.prec.bytes ++ (d.conv.bytes ++ rest)) := noDigit_prec _ _
    rw [Directive.bytes, List.append_assoc, List.append_assoc, List.append_assoc, reswitch_flags,
      reswitch_widthNum _ hwidth rfl hnd, hprec]
    exact (reswitch_dot _).trans (reswitch_last rfl rfl)

end

/-! ## A buffer without an end -/

/-- What is printed, and the next argument and `width` behind it. -/
structure Printed where
  text : List Byte
  ap : ℕ
  width : ℤ

/-- With some text in front. -/
def Printed.behind (text : List Byte) (r : Printed) : Printed := { r with text := text ++ r.text }

/-- What `vsnprintf` prints as long as there is room for it. -/
def printAll (a : Args) (ap : ℕ) (width : ℤ) : (fmt : List Byte) → Option Printed
  | [] => some ⟨[], ap, width⟩
  | ch :: fmt =>
      if ch ≠ ascii '%' then (printAll a ap width fmt).map (Printed.behind [ch])
      else
        match _h : reswitch ⟨Flags.none, width, 0, false, 0⟩ fmt with
        | none => none
        | some (c, ch, fmt') =>
            match convert a c ch ap with
            | none => none
            | some e => (printAll a e.ap e.width fmt').map (Printed.behind e.text)
termination_by fmt => fmt.length
decreasing_by
  · exact Nat.lt_succ_self _
  · exact (length_reswitch _h).trans (Nat.lt_succ_self _)

section

variable {a : Args} {ap : ℕ} {width : ℤ} {fmt : List Byte}

theorem printAll_text {ch : Byte} (hch : ch ≠ ascii '%') :
    printAll a ap width (ch :: fmt) = (printAll a ap width fmt).map (Printed.behind [ch]) := by
  rw [printAll, if_pos hch]

theorem printAll_conv {c : Conv} {ch : Byte} {fmt' : List Byte}
    (h : reswitch ⟨Flags.none, width, 0, false, 0⟩ fmt = some (c, ch, fmt')) :
    printAll a ap width (ascii '%' :: fmt) =
      (convert a c ch ap).bind fun e => (printAll a e.ap e.width fmt').map (Printed.behind e.text) := by
  rw [printAll, if_neg (not_not.mpr rfl)]
  split
  · rename_i hnone
    rw [h] at hnone
    cases hnone
  · rename_i hsome
    rw [h] at hsome
    cases hsome
    cases convert a c ch ap <;> rfl

theorem printAll_nil : printAll a ap width [] = some ⟨[], ap, width⟩ := by
  rw [printAll]

theorem behind_behind (s t : List Byte) (r : Printed) : (r.behind t).behind s = r.behind (s ++ t) := by
  rw [Printed.behind, Printed.behind, Printed.behind, List.append_assoc]

/-- Text without `%`. -/
theorem printAll_append {s : List Byte} (hs : ∀ b ∈ s, b ≠ ascii '%') :
    printAll a ap width (s ++ fmt) = (printAll a ap width fmt).map (Printed.behind s) := by
  induction s with
  | nil =>
      rw [List.nil_append]
      exact Option.map_id'.symm
  | cons b s ih =>
      have hb := hs b List.mem_cons_self
      rw [List.cons_append, printAll_text hb, ih fun b hb => hs b (List.mem_cons_of_mem _ hb), Option.map_map]
      rfl

end

/-! ## The standard -/

def Qualifier.bits : Qualifier → ℕ
  | none => 32
  | hh => 8
  | h => 16
  | l => 32
  | ll => 64
  | z => 32
  | t => 32

/-- How many words an argument takes. -/
def Qualifier.words : Qualifier → ℕ
  | ll => 2
  | _ => 1

/-- An argument of an unsigned type. -/
def Args.unsigned (a : Args) (ap : ℕ) (q : Qualifier) : ℕ := (a.arg (ap + 1) ++ a.arg ap).toNat % 2 ^ q.bits

/-- An argument of a signed type. -/
def Args.signed (a : Args) (ap : ℕ) (q : Qualifier) : ℤ :=
  if a.unsigned ap q < 2 ^ (q.bits - 1) then a.unsigned ap q else a.unsigned ap q - 2 ^ q.bits

/-- How an integer is converted. -/
structure IntForm where
  signed : Bool
  base : ℕ
  small : Bool

def IntConv.form : IntConv → IntForm
  | d => ⟨true, 10, false⟩
  | i => ⟨true, 10, false⟩
  | u => ⟨false, 10, false⟩
  | o => ⟨false, 8, false⟩
  | x => ⟨false, 16, true⟩
  | X => ⟨false, 16, false⟩

/-- The value of an argument. -/
def Args.value (a : Args) (ap : ℕ) (f : IntForm) (q : Qualifier) : ℤ :=
  if f.signed then a.signed ap q else a.unsigned ap q

def digitText (small : Bool) (d : ℕ) : Byte :=
  if d < 10 then BitVec.ofNat 8 ((ascii '0').toNat + d)
  else BitVec.ofNat 8 ((if small then ascii 'a' else ascii 'A').toNat + (d - 10))

/-- The digits of a number, without a 0 in front of them. -/
def digitsText (f : IntForm) (m : ℕ) : List Byte := ((Nat.digits f.base m).map (digitText f.small)).reverse

def signText (flags : List FlagChar) (f : IntForm) (value : ℤ) : List Byte :=
  if f.signed then
    if value < 0 then [ascii '-']
    else if .plus ∈ flags then [ascii '+']
    else if .space ∈ flags then [ascii ' ']
    else []
  else []

/-- How many zeros the precision puts in front of the digits. It is 1 where none is given. -/
def zerosText (prec : Option ℕ) (f : IntForm) (value : ℤ) : ℕ := prec.getD 1 - (digitsText f value.natAbs).length

/-- `#` puts `0x` in front of what is not 0, and makes an octal number begin with 0. -/
def prefixText (flags : List FlagChar) (prec : Option ℕ) (f : IntForm) (value : ℤ) : List Byte :=
  if .sharp ∈ flags ∧ f.base = 16 ∧ value ≠ 0 then [ascii '0', if f.small then ascii 'x' else ascii 'X']
  else if .sharp ∈ flags ∧ f.base = 8 ∧ zerosText prec f value = 0 then [ascii '0']
  else []

/-- The length of an integer before it is padded. -/
def intLen (flags : List FlagChar) (prec : Option ℕ) (f : IntForm) (value : ℤ) : ℕ :=
  (signText flags f value).length + (prefixText flags prec f value).length + zerosText prec f value +
    (digitsText f value.natAbs).length

/-- An integer. A `0` pads with zeros, unless there is a precision. -/
def intText (flags : List FlagChar) (width : ℕ) (prec : Option ℕ) (f : IntForm) (value : ℤ) : List Byte :=
  let pad := width - intLen flags prec f value
  let zeros := List.replicate (zerosText prec f value) (ascii '0')
  if .minus ∈ flags then
    signText flags f value ++ prefixText flags prec f value ++ zeros ++ digitsText f value.natAbs ++
      List.replicate pad (ascii ' ')
  else if .zero ∈ flags ∧ prec = none then
    signText flags f value ++ prefixText flags prec f value ++ List.replicate pad (ascii '0') ++ zeros ++
      digitsText f value.natAbs
  else
    List.replicate pad (ascii ' ') ++ signText flags f value ++ prefixText flags prec f value ++ zeros ++
      digitsText f value.natAbs

/-- A character or a string. -/
def padText (flags : List FlagChar) (width : ℕ) (s : List Byte) : List Byte :=
  if .minus ∈ flags then s ++ List.replicate (width - s.length) (ascii ' ')
  else List.replicate (width - s.length) (ascii ' ') ++ s

/-- What a conversion prints of its argument. -/
def Conversion.text (v : Conversion) (a : Args) (ap : ℕ) (flags : List FlagChar) (width : ℕ) (prec : Option ℕ) :
    List Byte :=
  match v with
  | c => padText flags width [(a.arg ap).setWidth 8]
  | s =>
      let s := if a.arg ap = 0 then nullString else a.str (a.arg ap)
      padText flags width (match prec with | none => s | some n => s.take n)
  | p => intText flags width prec ⟨false, 16, false⟩ (a.value ap ⟨false, 16, false⟩ .none)
  | int q v => intText flags width prec v.form (a.value ap v.form q)

def Conversion.words : Conversion → ℕ
  | int q _ => q.words
  | _ => 1

/-- The flags, the width, the precision and the place of the argument, after the arguments for `*` have been taken. A
negative width is one with `-`, and a negative precision is none. -/
structure Field where
  flags : List FlagChar
  width : ℕ
  prec : Option ℕ
  ap : ℕ

def Field.withWidth (s : Field) (a : Args) : Width → Field
  | .none => s
  | .num w => { s with width := w.value }
  | .star =>
      let n := a.signed s.ap .none
      { s with flags := if n < 0 then .minus :: s.flags else s.flags, width := n.natAbs, ap := s.ap + 1 }

def Field.withPrec (s : Field) (a : Args) : Precision → Field
  | .none => s
  | .num p => { s with prec := some p.value }
  | .star =>
      let n := a.signed s.ap .none
      { s with prec := if n < 0 then none else some n.natAbs, ap := s.ap + 1 }

def Directive.field (d : Directive) (a : Args) (ap : ℕ) : Field :=
  ((Field.mk d.flags 0 none ap).withWidth a d.width).withPrec a d.prec

def Directive.text (d : Directive) (a : Args) (ap : ℕ) : List Byte :=
  let s := d.field a ap
  d.conv.text a s.ap s.flags s.width s.prec

/-- The argument behind those of a directive. -/
def Directive.next (d : Directive) (a : Args) (ap : ℕ) : ℕ := (d.field a ap).ap + d.conv.words

/-- What a part of a format prints by the standard. -/
def Piece.c99 (a : Args) (ap : ℕ) : Piece → List Byte
  | text b _ => [b]
  | percent => [ascii '%']
  | dir d => d.text a ap

def Piece.next (a : Args) (ap : ℕ) : Piece → ℕ
  | text _ _ => ap
  | percent => ap
  | dir d => d.next a ap

/-- What a format prints by the standard. -/
def c99Output (a : Args) (ap : ℕ) : (fmt : List Piece) → List Byte
  | [] => []
  | p :: fmt => p.c99 a ap ++ c99Output a (p.next a ap) fmt

/-- The argument behind those of a format. -/
def c99Next (a : Args) (ap : ℕ) : (fmt : List Piece) → ℕ
  | [] => ap
  | p :: fmt => c99Next a (p.next a ap) fmt

/-! ## Digits -/

section

theorem foldl_add (l : List FlagChar) (f : Flags) :
    l.foldl Flags.add f = ⟨f.sign, f.left || decide (.minus ∈ l), f.space || decide (.space ∈ l),
      f.zeropad || decide (.zero ∈ l), f.special || decide (.sharp ∈ l), f.small, f.plus || decide (.plus ∈ l)⟩ := by
  induction l generalizing f with
  | nil => simp
  | cons c l ih =>
      rw [List.foldl_cons, ih]
      cases c <;> simp [Flags.add]

theorem shiftDigits_eq (shift : ℕ) (hlow : 0 < shift) (hhigh : shift ≤ 8) (fuel num : ℕ) (hpos : num ≠ 0)
    (hlt : num < (2 ^ shift) ^ fuel) :
    shiftDigits shift (2 ^ shift - 1) fuel num = Nat.digits (2 ^ shift) num := by
  induction fuel generalizing num with
  | zero =>
      rw [pow_zero] at hlt
      omega
  | succ fuel ih =>
      have hbase : 1 < 2 ^ shift := Nat.one_lt_two_pow hlow.ne'
      have hdigit : num % 2 ^ 8 &&& (2 ^ shift - 1) = num % 2 ^ shift := by
        rw [Nat.and_two_pow_sub_one_eq_mod, Nat.mod_mod_of_dvd _ (Nat.pow_dvd_pow 2 hhigh)]
      rw [shiftDigits, hdigit, Nat.shiftRight_eq_div_pow, Nat.digits_def' hbase (Nat.pos_of_ne_zero hpos)]
      by_cases hrest : num / 2 ^ shift = 0
      · rw [if_pos hrest, hrest, Nat.digits_zero]
      · rw [if_neg hrest, ih _ hrest (Nat.div_lt_of_lt_mul (by rwa [← pow_succ']))]

theorem divDigits_eq (fuel num : ℕ) (hpos : num % 2 ^ 32 ≠ 0) (hlt : num % 2 ^ 32 < 10 ^ fuel) :
    divDigits fuel num = Nat.digits 10 (num % 2 ^ 32) := by
  induction fuel generalizing num with
  | zero =>
      rw [pow_zero] at hlt
      omega
  | succ fuel ih =>
      rw [divDigits, Nat.digits_def' (by decide) (Nat.pos_of_ne_zero hpos)]
      by_cases hrest : num % 2 ^ 32 / 10 = 0
      · rw [if_pos hrest, hrest, Nat.digits_zero]
      · have hmod : num % 2 ^ 32 / 10 % 2 ^ 32 = num % 2 ^ 32 / 10 := Nat.mod_eq_of_lt (by omega)
        have hih := ih (num % 2 ^ 32 / 10) (by rwa [hmod])
          (by rw [hmod]; exact Nat.div_lt_of_lt_mul (by rwa [← pow_succ']))
        rw [if_neg hrest, hih, hmod]

/-- What is left of a number by `do_div`. -/
def low (base num : ℕ) : ℕ := if base = 10 then num % 2 ^ 32 else num

theorem tmpDigits_eq {base num : ℕ} (hbase : base = 8 ∨ base = 10 ∨ base = 16) (hlt : num < 2 ^ 64) :
    tmpDigits num base = if low base num = 0 then [0] else Nat.digits base (low base num) := by
  have hfuel : num < (2 ^ 3) ^ 66 := hlt.trans (by norm_num)
  have hfuel' : num < (2 ^ 4) ^ 66 := hlt.trans (by norm_num)
  have hten : num % 2 ^ 32 < 10 ^ 66 := (Nat.mod_lt _ (by norm_num)).trans (by norm_num)
  rw [tmpDigits]
  by_cases hzero : num = 0
  · rcases hbase with rfl | rfl | rfl <;> simp [hzero, low]
  rw [if_neg hzero]
  rcases hbase with rfl | rfl | rfl
  · have hlow : low 8 num = num := if_neg (by decide)
    rw [if_pos (by decide), hlow, if_neg hzero, if_neg (by decide)]
    exact shiftDigits_eq 3 (by decide) (by decide) 66 num hzero hfuel
  · have hlow : low 10 num = num % 2 ^ 32 := if_pos rfl
    rw [if_neg (by decide), hlow]
    by_cases hmod : num % 2 ^ 32 = 0
    · rw [if_pos hmod, divDigits, hmod]
      rfl
    · rw [if_neg hmod]
      exact divDigits_eq 66 num hmod hten
  · have hlow : low 16 num = num := if_neg (by decide)
    rw [if_pos (by decide), hlow, if_neg hzero, if_pos rfl]
    exact shiftDigits_eq 4 (by decide) (by decide) 66 num hzero hfuel'

theorem digitByte_eq (flags : Flags) : ∀ d < 16, digitByte flags d = digitText flags.small d := by
  have hdigits : ∀ small, ∀ d < 16,
      (BitVec.ofNat 8 (if d < 10 then 48 + d else 55 + d) ||| if small then 0x20 else 0) = digitText small d := by
    decide
  exact hdigits flags.small

/-- What goes out of `tmp`: a 0 if there is nothing else, and the digits. -/
theorem tmpText_eq {f : IntForm} {flags : Flags} {num : ℕ} (hbase : f.base = 8 ∨ f.base = 10 ∨ f.base = 16)
    (hsmall : flags.small = f.small) (hlt : num < 2 ^ 64) :
    ((tmpDigits num f.base).map (digitByte flags)).reverse =
      List.replicate (if low f.base num = 0 then 1 else 0) (ascii '0') ++ digitsText f (low f.base num) := by
  have hdigits : ∀ d ∈ Nat.digits f.base (low f.base num), digitByte flags d = digitText f.small d := by
    intro d hd
    have hlt := Nat.digits_lt_base (by omega) hd
    rw [← hsmall]
    exact digitByte_eq flags d (by omega)
  rw [tmpDigits_eq hbase hlt, digitsText]
  by_cases hzero : low f.base num = 0
  · rw [if_pos hzero, if_pos hzero, hzero, Nat.digits_zero, List.map_singleton, digitByte_eq flags 0 (by decide)]
    rfl
  · rw [if_neg hzero, if_neg hzero, List.map_congr_left hdigits]
    rfl

theorem length_digitsText (f : IntForm) (m : ℕ) : (digitsText f m).length = (Nat.digits f.base m).length := by
  rw [digitsText, List.length_reverse, List.length_map]

/-- A character of a number's digits. -/
def isFigure (b : Byte) : Bool := b ∉ [ascii ' ', ascii '+', ascii '-', ascii 'x', ascii 'X']

theorem isFigure_digitText : ∀ small, ∀ d < 16, isFigure (digitText small d) = true := by
  decide

theorem digitText_inj : ∀ small, ∀ d < 16, ∀ e < 16, digitText small d = digitText small e → d = e := by
  decide

theorem isFigure_of_mem {f : IntForm} {m : ℕ} (hbase : f.base = 8 ∨ f.base = 10 ∨ f.base = 16) :
    ∀ b ∈ digitsText f m, isFigure b = true := by
  intro b hb
  rw [digitsText, List.mem_reverse] at hb
  obtain ⟨d, hd, rfl⟩ := List.mem_map.mp hb
  have hlt := Nat.digits_lt_base (by omega) hd
  exact isFigure_digitText f.small d (by omega)

/-- There is no 0 in front. -/
theorem head_digitsText {f : IntForm} {m : ℕ} (hbase : f.base = 8 ∨ f.base = 10 ∨ f.base = 16) :
    (digitsText f m).head? ≠ some (ascii '0') := by
  intro h
  rw [digitsText, List.head?_reverse, List.getLast?_map, Option.map_eq_some_iff] at h
  obtain ⟨d, hd, hchar⟩ := h
  have hmem := List.mem_of_getLast? hd
  have hlt := Nat.digits_lt_base (by omega) hmem
  obtain rfl : d = 0 := digitText_inj f.small d (by omega) 0 (by decide) hchar
  have hne : Nat.digits f.base m ≠ [] := List.ne_nil_of_mem hmem
  have hlast := Nat.getLast_digit_ne_zero f.base (Nat.digits_ne_nil_iff_ne_zero.mp hne)
  rw [List.getLast?_eq_some_getLast hne] at hd
  exact hlast (Option.some.inj hd)

theorem map_digitText_inj {small : Bool} {l l' : List ℕ} (hl : ∀ d ∈ l, d < 16) (hl' : ∀ d ∈ l', d < 16)
    (h : l.map (digitText small) = l'.map (digitText small)) : l = l' := by
  induction l generalizing l' with
  | nil =>
      rw [List.map_nil] at h
      exact (List.map_eq_nil_iff.mp h.symm).symm
  | cons d l ih =>
      cases l' with
      | nil => cases h
      | cons e l' =>
          rw [List.map_cons, List.map_cons, List.cons.injEq] at h
          obtain ⟨hd, hl⟩ := List.forall_mem_cons.mp hl
          obtain ⟨he, hl'⟩ := List.forall_mem_cons.mp hl'
          rw [digitText_inj small d hd e he h.1, ih hl hl' h.2]

theorem digitsText_inj {f : IntForm} {m n : ℕ} (hbase : f.base = 8 ∨ f.base = 10 ∨ f.base = 16)
    (h : digitsText f m = digitsText f n) : m = n := by
  rw [digitsText, digitsText, List.reverse_inj] at h
  have hlt : ∀ k, ∀ d ∈ Nat.digits f.base k, d < 16 := by
    intro k d hd
    exact (Nat.digits_lt_base (by omega) hd).trans_le (by omega)
  exact Nat.digits_inj_iff.mp (map_digitText_inj (hlt m) (hlt n) h)

end

/-! ## Where the padding is -/

section

theorem replicate_append_inj {c : Byte} {m n : ℕ} {l l' : List Byte} (hl : l.head? ≠ some c) (hl' : l'.head? ≠ some c)
    (h : List.replicate m c ++ l = List.replicate n c ++ l') : m = n ∧ l = l' := by
  induction m generalizing n with
  | zero =>
      cases n with
      | zero => exact ⟨rfl, h⟩
      | succ n =>
          rw [List.replicate_zero, List.nil_append] at h
          rw [h] at hl
          exact absurd rfl hl
  | succ m ih =>
      cases n with
      | zero =>
          rw [List.replicate_zero, List.nil_append] at h
          rw [← h] at hl'
          exact absurd rfl hl'
      | succ n =>
          rw [List.replicate_succ, List.replicate_succ, List.cons_append, List.cons_append, List.cons.injEq] at h
          obtain ⟨rfl, hrest⟩ := ih h.2
          exact ⟨rfl, hrest⟩

/-- What `#` puts in front of a number, if it does. -/
def sharpText (f : IntForm) (on : Bool) : List Byte :=
  if on then ascii '0' :: if f.base = 16 then [if f.small then ascii 'x' else ascii 'X'] else [] else []

theorem length_sharpText (f : IntForm) (on : Bool) :
    (sharpText f on).length = if on then if f.base = 16 then 2 else 1 else 0 := by
  rw [sharpText]
  split_ifs <;> rfl

theorem figures_sharpText (f : IntForm) (on : Bool) :
    (sharpText f on).filter isFigure = List.replicate on.toNat (ascii '0') := by
  rw [sharpText]
  cases on <;> cases f.small <;> split_ifs <;> first | contradiction | rfl

theorem spaces_sharpText (f : IntForm) (on : Bool) : (sharpText f on).count (ascii ' ') = 0 := by
  rw [sharpText]
  cases on <;> cases f.small <;> split_ifs <;> first | contradiction | rfl

/-- A number with all of its padding. -/
def layout (f : IntForm) (before : ℕ) (sign : List Byte) (on : Bool) (between zeros : ℕ) (digits : List Byte)
    (after : ℕ) : List Byte :=
  List.replicate before (ascii ' ') ++ (sign ++ (sharpText f on ++ (List.replicate between (ascii ' ') ++
    (List.replicate zeros (ascii '0') ++ (digits ++ List.replicate after (ascii ' '))))))

variable {f : IntForm} {before between zeros after before' zeros' after' m m' : ℕ} {sign : List Byte} {on on' : Bool}

theorem figures_layout (hbase : f.base = 8 ∨ f.base = 10 ∨ f.base = 16) (hsign : sign.filter isFigure = []) :
    (layout f before sign on between zeros (digitsText f m) after).filter isFigure =
      List.replicate (on.toNat + zeros) (ascii '0') ++ digitsText f m := by
  have hspace : ∀ k, (List.replicate k (ascii ' ')).filter isFigure = [] := by
    intro k
    rw [List.filter_replicate]
    rfl
  have hzero : ∀ k, (List.replicate k (ascii '0')).filter isFigure = List.replicate k (ascii '0') := by
    intro k
    rw [List.filter_replicate]
    rfl
  simp only [layout, List.filter_append, hspace, hzero, hsign, figures_sharpText, List.nil_append, List.append_nil,
    List.filter_eq_self.mpr (isFigure_of_mem hbase), List.replicate_add, List.append_assoc]

theorem spaces_layout (hbase : f.base = 8 ∨ f.base = 10 ∨ f.base = 16) :
    (layout f before sign on between zeros (digitsText f m) after).count (ascii ' ') =
      before + sign.count (ascii ' ') + between + after := by
  have hdigits : (digitsText f m).count (ascii ' ') = 0 := by
    refine List.count_eq_zero_of_not_mem fun hmem => ?_
    have hfig := isFigure_of_mem hbase _ hmem
    revert hfig
    decide
  have hzero : (List.replicate zeros (ascii '0')).count (ascii ' ') = 0 := by
    rw [List.count_replicate]
    rfl
  simp only [layout, List.count_append, List.count_replicate_self, hdigits, hzero, spaces_sharpText]
  omega

theorem length_layout :
    (layout f before sign on between zeros (digitsText f m) after).length =
      before + sign.length + (sharpText f on).length + between + zeros + (digitsText f m).length + after := by
  simp only [layout, List.length_append, List.length_replicate]
  omega

/-- What two layouts with the same sign have in common if they are the same text. -/
theorem layout_inj (hbase : f.base = 8 ∨ f.base = 10 ∨ f.base = 16) (hsign : sign.filter isFigure = [])
    (h : layout f before sign on between zeros (digitsText f m) after =
      layout f before' sign on' 0 zeros' (digitsText f m') after') :
    m = m' ∧ before + between + after = before' + after' ∧ on.toNat + zeros = on'.toNat + zeros' ∧
      (f.base = 16 → on = on') := by
  have hfigures := congrArg (List.filter isFigure) h
  rw [figures_layout hbase hsign, figures_layout hbase hsign] at hfigures
  obtain ⟨hzeros, hdigits⟩ := replicate_append_inj (head_digitsText hbase) (head_digitsText hbase) hfigures
  have hspaces := congrArg (List.count (ascii ' ')) h
  rw [spaces_layout hbase, spaces_layout hbase] at hspaces
  have hlength := congrArg List.length h
  rw [length_layout, length_layout, hdigits, length_sharpText, length_sharpText] at hlength
  refine ⟨digitsText_inj hbase hdigits, by omega, hzeros, ?_⟩
  intro hhex
  rw [if_pos hhex] at hlength
  cases on <;> cases on' <;> simp at hlength hzeros ⊢ <;> omega

theorem layout_congr {digits : List Byte} (hzeros : on.toNat + zeros = on'.toNat + zeros')
    (hhex : f.base = 16 → on = on') :
    layout f before sign on 0 zeros digits after = layout f before sign on' 0 zeros' digits after := by
  have hfront : sharpText f on ++ (List.replicate zeros (ascii '0') ++ (digits ++ List.replicate after (ascii ' '))) =
      sharpText f on' ++ (List.replicate zeros' (ascii '0') ++ (digits ++ List.replicate after (ascii ' '))) := by
    by_cases hbase : f.base = 16
    · obtain rfl := hhex hbase
      obtain rfl : zeros = zeros' := Nat.add_left_cancel hzeros
      rfl
    · have hsharp : ∀ on, sharpText f on = List.replicate on.toNat (ascii '0') := by
        intro on
        rw [sharpText, if_neg hbase]
        cases on <;> rfl
      rw [hsharp, hsharp, ← List.append_assoc, ← List.append_assoc (List.replicate on'.toNat _),
        ← List.replicate_add, ← List.replicate_add, hzeros]
  rw [layout, layout, List.replicate_zero, List.nil_append, List.nil_append, hfront]

end

/-! ## When an integer is printed right -/

/-- The precision that is given. -/
def Precision.given : Precision → Option ℕ
  | none => .none
  | num p => some p.value
  | star => .none

/-- The width in force leaves as much, in an `int`, as the one that is given. -/
def SamePad (lowest width : ℤ) (given len : ℕ) : Prop :=
  max 0 (wrap (width - len)) = max 0 ((given : ℤ) - len) ∧ lowest ≤ wrap (width - len)

/-- Whether a number is padded with zeros. -/
def padsZeros (flags : List FlagChar) (p : Precision) : Bool := decide (.zero ∈ flags) || p.zeropad

/-- What the padding of an integer must be like, with `width` in force and `given` in the directive. -/
def PadOk (flags : List FlagChar) (width : ℤ) (given : ℕ) (p : Precision) (len : ℕ) : Prop :=
  if .minus ∈ flags then given ≤ len ∧ wrap (width - len) < 0
  else
    SamePad (if padsZeros flags p then -2 ^ 31 + 1 else -2 ^ 31 + 2) width given len ∧
      (given ≤ len ∨ p.given = none ∨ padsZeros flags p = false)

/-- There is no digit less than the code prints, and no prefix either. -/
def PrefixOk (flags : List FlagChar) (p : Precision) (f : IntForm) (value : ℤ) : Prop :=
  ¬ (value = 0 ∧ p.given = some 0) ∧
    (.sharp ∈ flags → (f.base = 16 → value ≠ 0) ∧ (f.base = 8 → zerosText p.given f value = 0))

/-- An octal 0 with `#` that is padded with zeros to a width of 2 or more: the 0 too many is one of the padding. -/
def OctalZero (flags : List FlagChar) (given : ℕ) (p : Precision) (f : IntForm) (value : ℤ) : Prop :=
  f.base = 8 ∧ .sharp ∈ flags ∧ .zero ∈ flags ∧ .minus ∉ flags ∧ value = 0 ∧ p.given = none ∧ 2 ≤ given

def IntOk (flags : List FlagChar) (width : ℤ) (given : ℕ) (p : Precision) (f : IntForm) (value : ℤ) : Prop :=
  (PrefixOk flags p f value ∧ PadOk flags width given p (intLen flags p.given f value)) ∨
    OctalZero flags given p f value

section

/-- What is known of the width in force. -/
structure InForce (width : ℤ) (given : ℕ) : Prop where
  low : -2 ^ 31 ≤ width
  high : width < 2 ^ 31
  lt : given < 2 ^ 31
  own : 0 < given → width = given

variable {flags : List FlagChar} {width : ℤ} {given len : ℕ} {p : Precision} {f : IntForm} {value : ℤ}

theorem wrap_mem (x : ℤ) : -2 ^ 31 ≤ wrap x ∧ wrap x < 2 ^ 31 := by
  unfold wrap
  omega

theorem padZeros_iff (hlt : given < 2 ^ 31) :
    padCount (wrap (width - len)) = given - len ↔ SamePad (-2 ^ 31 + 1) width given len := by
  have hmem := wrap_mem (width - len)
  rw [SamePad, padCount]
  generalize wrap (width - len) = left at hmem ⊢
  unfold wrap
  omega

theorem padSpaces_iff (hlt : given < 2 ^ 31) :
    padCount (wrap (width - len)) + padCount (padEnd (wrap (width - len))) = given - len ↔
      SamePad (-2 ^ 31 + 2) width given len := by
  have hmem := wrap_mem (width - len)
  rw [SamePad, padEnd, padCount, padCount]
  generalize wrap (width - len) = left at hmem ⊢
  unfold wrap
  split_ifs <;> omega

/-- The flags as `number` has them. -/
def intFlags (flags : List FlagChar) (p : Precision) (f : IntForm) : Flags :=
  ⟨f.signed, decide (.minus ∈ flags), decide (.space ∈ flags), padsZeros flags p, decide (.sharp ∈ flags), f.small,
    decide (.plus ∈ flags)⟩

/-- Whether the code puts something in front of a number. -/
def codeSharp (flags : List FlagChar) (f : IntForm) : Bool := decide (.sharp ∈ flags ∧ f.base ≠ 10)

/-- Whether the standard does. -/
def stdSharp (flags : List FlagChar) (p : Precision) (f : IntForm) (value : ℤ) : Bool :=
  decide (.sharp ∈ flags ∧ (f.base = 16 ∧ value ≠ 0 ∨ f.base = 8 ∧ zerosText p.given f value = 0))

/-- How many zeros of the precision the code prints, for `n` digits. -/
def codeZeros (p : Precision) (n : ℕ) : ℕ := max p.value (max n 1) - n

theorem prefixOf_eq : prefixOf (intFlags flags p f) f.base = sharpText f (codeSharp flags f) := by
  have hchar : ascii 'X' ||| locase (intFlags flags p f) = if f.small then ascii 'x' else ascii 'X' := by
    have hsmall : locase (intFlags flags p f) = if f.small then 0x20 else 0 := rfl
    rw [hsmall]
    cases f.small <;> rfl
  rw [prefixOf, hchar, sharpText, codeSharp, intFlags]
  simp only [decide_eq_true_eq]

theorem prefixText_eq : prefixText flags p.given f value = sharpText f (stdSharp flags p f value) := by
  rw [prefixText, sharpText, stdSharp]
  by_cases hhex : f.base = 16
  · have hoct : f.base ≠ 8 := by omega
    simp [hhex]
  · simp [hhex]

/-- A number is as long as its digits, the zeros, the prefix and the sign. -/
theorem intLen_eq : intLen flags p.given f value =
    (signText flags f value).length + (sharpText f (stdSharp flags p f value)).length + zerosText p.given f value +
      (digitsText f value.natAbs).length := by
  rw [intLen, prefixText_eq]

/-- The text of the standard. -/
theorem intText_eq : intText flags given p.given f value =
    if .minus ∈ flags then
      layout f 0 (signText flags f value) (stdSharp flags p f value) 0 (zerosText p.given f value)
        (digitsText f value.natAbs) (given - intLen flags p.given f value)
    else if .zero ∈ flags ∧ p.given = none then
      layout f 0 (signText flags f value) (stdSharp flags p f value) 0
        (given - intLen flags p.given f value + zerosText p.given f value) (digitsText f value.natAbs) 0
    else
      layout f (given - intLen flags p.given f value) (signText flags f value) (stdSharp flags p f value) 0
        (zerosText p.given f value) (digitsText f value.natAbs) 0 := by
  rw [intText, prefixText_eq]
  split_ifs <;> simp only [layout, List.replicate_add, List.replicate_zero, List.nil_append, List.append_nil,
    List.append_assoc]

theorem length_digitsText_eq_zero {m : ℕ} : (digitsText f m).length = 0 ↔ m = 0 := by
  rw [length_digitsText, List.length_eq_zero_iff, Nat.digits_eq_nil_iff_eq_zero]

/-- The text of the code, for a number of which `m` is left in the end. -/
theorem number_layout {num mag : ℕ} (hbase : f.base = 8 ∨ f.base = 10 ∨ f.base = 16) (hmag : mag < 2 ^ 64)
    (hsign : signOf num (intFlags flags p f) = (signText flags f value, mag)) :
    number num (intFlags flags p f) f.base width p.value =
      let digits := digitsText f (low f.base mag)
      let zeros := codeZeros p digits.length
      let w := wrap (width - ((signText flags f value).length + (sharpText f (codeSharp flags f)).length + zeros +
        digits.length : ℕ))
      if .minus ∈ flags then
        if 0 ≤ w then none else some (layout f 0 (signText flags f value) (codeSharp flags f) 0 zeros digits 0)
      else if padsZeros flags p then
        some (layout f 0 (signText flags f value) (codeSharp flags f) 0 (padCount w + zeros) digits 0)
      else
        some (layout f (padCount w) (signText flags f value) (codeSharp flags f) (padCount (padEnd w)) zeros digits
          0) := by
  have hsmall : (intFlags flags p f).small = f.small := rfl
  have htmp := tmpText_eq hbase hsmall hmag
  have hlen := congrArg List.length htmp
  rw [List.length_reverse, List.length_map, List.length_append, List.length_replicate] at hlen
  have hzero : (digitsText f (low f.base mag)).length = 0 ↔ low f.base mag = 0 := length_digitsText_eq_zero
  generalize hD : digitsText f (low f.base mag) = digits at htmp hlen hzero
  have hzeros : ((p.value : ℤ) - (tmpDigits mag f.base).length).toNat + (if low f.base mag = 0 then 1 else 0) =
      codeZeros p digits.length := by
    rw [hlen, codeZeros]
    split_ifs with h
    · have := hzero.mpr h
      omega
    · have := mt hzero.mp h
      omega
  have hbody : bodyLen num (intFlags flags p f) f.base p.value =
      (((signText flags f value).length + (sharpText f (codeSharp flags f)).length + codeZeros p digits.length +
        digits.length : ℕ) : ℤ) := by
    rw [bodyLen, hsign, prefixOf_eq]
    dsimp only
    rw [hlen, codeZeros]
    split_ifs with h
    · have := hzero.mpr h
      push_cast
      omega
    · have := mt hzero.mp h
      push_cast
      omega
  rw [number_eq, hbody, hsign, prefixOf_eq]
  dsimp only
  rw [htmp, ← List.append_assoc (List.replicate _ _) (List.replicate _ _) digits, ← List.replicate_add, hzeros]
  have hleft : (intFlags flags p f).left = decide (.minus ∈ flags) := rfl
  have hpad : (intFlags flags p f).zeropad = padsZeros flags p := rfl
  rw [hleft, hpad]
  simp only [decide_eq_true_eq]
  split_ifs
  · rfl
  all_goals simp only [layout, List.replicate_add, List.replicate_zero, List.nil_append, List.append_nil,
    List.append_assoc]

theorem given_cases (p : Precision) : p.given = none ∧ p.value = 0 ∨ p.given = some p.value := by
  cases p with
  | none => exact .inl ⟨rfl, rfl⟩
  | num p => exact .inr rfl
  | star => exact .inl ⟨rfl, rfl⟩

theorem digits_nil_iff {v : ℤ} : (digitsText f v.natAbs).length = 0 ↔ v = 0 := by
  rw [length_digitsText_eq_zero, Int.natAbs_eq_zero]

/-- Where the prefix is right, it is the same one, and there are as many zeros. -/
theorem PrefixOk.eq (h : PrefixOk flags p f value) (hbase : f.base = 8 ∨ f.base = 10 ∨ f.base = 16) :
    codeSharp flags f = stdSharp flags p f value ∧
      codeZeros p (digitsText f value.natAbs).length = zerosText p.given f value := by
  obtain ⟨hzero, hsharp⟩ := h
  have hnil := digits_nil_iff (f := f) (v := value)
  rw [codeSharp, stdSharp, codeZeros]
  constructor
  · rw [Bool.eq_iff_iff, decide_eq_true_eq, decide_eq_true_eq]
    constructor
    · rintro ⟨hmem, hten⟩
      refine ⟨hmem, ?_⟩
      rcases hbase with h8 | h10 | h16
      · exact .inr ⟨h8, (hsharp hmem).2 h8⟩
      · exact absurd h10 hten
      · exact .inl ⟨h16, (hsharp hmem).1 h16⟩
    · rintro ⟨hmem, hcase⟩
      exact ⟨hmem, by omega⟩
  · rw [zerosText]
    rcases given_cases p with ⟨hnone, hvalue⟩ | hsome
    · rw [hnone, hvalue, Option.getD_none]
      omega
    · rw [hsome] at hzero ⊢
      rw [Option.getD_some]
      rw [Option.some.injEq] at hzero
      omega

/-- Where it is not, there is a 0 too many, or the prefix of a hexadecimal number. -/
theorem sharp_of_not_prefixOk (h : ¬ PrefixOk flags p f value) (hbase : f.base = 8 ∨ f.base = 10 ∨ f.base = 16) :
    (codeSharp flags f).toNat + codeZeros p (digitsText f value.natAbs).length =
        (stdSharp flags p f value).toNat + zerosText p.given f value + 1 ∨
      (f.base = 16 ∧ codeSharp flags f ≠ stdSharp flags p f value) := by
  have hnil := digits_nil_iff (f := f) (v := value)
  rw [PrefixOk, not_and_or, not_not] at h
  rcases h with ⟨hvalue, hgiven⟩ | h
  · have hn := hnil.mpr hvalue
    have hzeros : zerosText p.given f value = 0 := by
      rw [zerosText, hgiven, Option.getD_some, Nat.zero_sub]
    have hpval : p.value = 0 := by
      rcases given_cases p with ⟨-, hpval⟩ | hsome
      · exact hpval
      · exact Option.some.inj (hsome.symm.trans hgiven)
    by_cases hhex : f.base = 16 ∧ codeSharp flags f ≠ stdSharp flags p f value
    · exact .inr hhex
    · have hsame : codeSharp flags f = stdSharp flags p f value := by
        rcases hbase with h8 | h10 | h16
        · simp [codeSharp, stdSharp, h8, hzeros]
        · simp [codeSharp, stdSharp, h10]
        · by_contra hne
          exact hhex ⟨h16, hne⟩
      refine .inl ?_
      rw [hsame, hzeros, hn, codeZeros, hpval]
      rfl
  · obtain ⟨hmem, hcase⟩ := Classical.not_imp.mp h
    have hcases : f.base = 16 ∧ value = 0 ∨ f.base = 8 ∧ zerosText p.given f value ≠ 0 := by tauto
    rcases hcases with ⟨h16, hvalue⟩ | ⟨h8, hzeros⟩
    · refine .inr ⟨h16, ?_⟩
      simp [codeSharp, stdSharp, h16, hmem, hvalue]
    · refine .inl ?_
      have hcode : codeSharp flags f = true := by simp [codeSharp, h8, hmem]
      have hstd : stdSharp flags p f value = false := by simp [stdSharp, h8, hzeros]
      rw [hcode, hstd, codeZeros]
      rw [zerosText] at hzeros ⊢
      rcases given_cases p with ⟨hnone, hpval⟩ | hsome
      · rw [hnone, Option.getD_none] at hzeros ⊢
        rw [hpval]
        change 1 + _ = 0 + _ + 1
        omega
      · rw [hsome, Option.getD_some] at hzeros ⊢
        change 1 + _ = 0 + _ + 1
        omega

/-- The code's length of a number before it is padded. -/
theorem PrefixOk.length_eq (h : PrefixOk flags p f value) (hbase : f.base = 8 ∨ f.base = 10 ∨ f.base = 16) :
    (signText flags f value).length + (sharpText f (codeSharp flags f)).length +
        codeZeros p (digitsText f value.natAbs).length + (digitsText f value.natAbs).length =
      intLen flags p.given f value := by
  obtain ⟨hsharp, hzeros⟩ := h.eq hbase
  rw [intLen_eq, hsharp, hzeros]

theorem padEnd_count {left : ℤ} (h : -2 ^ 31 + 2 ≤ wrap left) : padCount (padEnd (wrap left)) = 0 := by
  have hmem := wrap_mem left
  rw [padEnd, padCount]
  generalize wrap left = w at hmem h ⊢
  unfold wrap
  split_ifs <;> omega

theorem zeros_of_given (hpads : padsZeros flags p = true) (hstd : ¬ (.zero ∈ flags ∧ p.given = none)) :
    p.given ≠ none := by
  intro hnone
  have hmem : .zero ∉ flags := fun hmem => hstd ⟨hmem, hnone⟩
  rw [padsZeros, decide_eq_false hmem, Bool.false_or] at hpads
  cases p with
  | none => cases hpads
  | num p => cases hnone
  | star => cases hpads

/-- Without a precision, the prefix is right but for a 0, where it is hexadecimal or octal. -/
theorem octal_of_not_prefixOk (h : ¬ PrefixOk flags p f value) (hnone : p.given = none)
    (hhex : f.base = 16 → codeSharp flags f = stdSharp flags p f value) :
    f.base = 8 ∧ .sharp ∈ flags ∧ value = 0 := by
  have hnil := digits_nil_iff (f := f) (v := value)
  rw [PrefixOk, hnone] at h
  have hcases : .sharp ∈ flags ∧ (f.base = 16 ∧ value = 0 ∨ f.base = 8 ∧ zerosText none f value ≠ 0) := by
    by_contra hnot
    refine h ⟨fun hboth => (by simp at hboth), fun hmem => ?_⟩
    tauto
  obtain ⟨hmem, ⟨h16, hvalue⟩ | ⟨h8, hzeros⟩⟩ := hcases
  · have hsame := hhex h16
    simp [codeSharp, stdSharp, h16, hmem, hvalue] at hsame
  · rw [zerosText, Option.getD_none] at hzeros
    exact ⟨h8, hmem, hnil.mp (by omega)⟩

/-- The octal 0 of the code and of the standard. -/
theorem octalZero_eq {given : ℕ} (h : OctalZero flags given p f value) (hlt : given < 2 ^ 31)
    (hown : 0 < given → width = given) (hoct : f.base = 8 → f.signed = false) :
    signText flags f value = [] ∧ codeSharp flags f = true ∧ stdSharp flags p f value = false ∧
      zerosText p.given f value = 1 ∧ codeZeros p (digitsText f value.natAbs).length = 1 ∧
      padCount (wrap (width - ((signText flags f value).length + (sharpText f true).length +
        codeZeros p (digitsText f value.natAbs).length + (digitsText f value.natAbs).length : ℕ))) = given - 2 ∧
      intLen flags p.given f value = 1 := by
  obtain ⟨h8, hmem, hzero, hminus, hvalue, hnone, hle⟩ := h
  have hn : (digitsText f value.natAbs).length = 0 := digits_nil_iff.mpr hvalue
  have hpval : p.value = 0 := by
    rcases given_cases p with ⟨-, hpval⟩ | hsome
    · exact hpval
    · rw [hnone] at hsome
      cases hsome
  have hsign : signText flags f value = [] := by
    rw [signText, hoct h8]
    rfl
  have hzeros : zerosText p.given f value = 1 := by
    rw [zerosText, hnone, hn]
    rfl
  have hcode : codeZeros p (digitsText f value.natAbs).length = 1 := by
    rw [codeZeros, hn, hpval]
    rfl
  have hstd : stdSharp flags p f value = false := by simp [stdSharp, h8, hzeros]
  have hsharp : (sharpText f true).length = 1 := by
    rw [length_sharpText, h8]
    rfl
  refine ⟨hsign, by simp [codeSharp, h8, hmem], hstd, hzeros, hcode, ?_, ?_⟩
  · rw [hsign, hsharp, hcode, hn, hown (by omega), padCount]
    unfold wrap
    simp only [List.length_nil]
    omega
  · rw [intLen_eq, hsign, hstd, hzeros, hn]
    rfl

theorem figures_signText {v : ℤ} : (signText flags f v).filter isFigure = [] := by
  rw [signText]
  split_ifs <;> rfl

/-- `number` prints a number by the standard if and only if it has not lost a part of it, and the prefix and the
padding are right. -/
theorem number_iff {num mag : ℕ} (hbase : f.base = 8 ∨ f.base = 10 ∨ f.base = 16) (hmag : mag < 2 ^ 64)
    (hsign : signOf num (intFlags flags p f) = (signText flags f value, mag)) (hlt : given < 2 ^ 31)
    (hown : 0 < given → width = given) (hoct : f.base = 8 → f.signed = false) :
    number num (intFlags flags p f) f.base width p.value = some (intText flags given p.given f value) ↔
      low f.base mag = value.natAbs ∧ IntOk flags width given p f value := by
  have hfig : (signText flags f value).filter isFigure = [] := figures_signText
  rw [number_layout hbase hmag hsign, intText_eq]
  dsimp only
  rw [IntOk, PadOk]
  by_cases hminus : .minus ∈ flags
  · rw [if_pos hminus, if_pos hminus, if_pos hminus]
    constructor
    · intro h
      split_ifs at h with hleft
      obtain ⟨hm, hspaces, hzeros, hhex⟩ := layout_inj hbase hfig (Option.some.inj h)
      rw [hm] at hzeros hleft
      have hok : PrefixOk flags p f value := by
        by_contra hnot
        rcases sharp_of_not_prefixOk hnot hbase with hmore | ⟨h16, hne⟩
        · omega
        · exact hne (hhex h16)
      rw [hok.length_eq hbase] at hleft
      exact ⟨hm, .inl ⟨hok, by omega, by omega⟩⟩
    · rintro ⟨hm, ⟨hok, hle, hleft⟩ | hzero⟩
      · obtain ⟨hsharp, hzeros⟩ := hok.eq hbase
        rw [hm, hok.length_eq hbase, if_neg (by omega), hsharp, hzeros, Nat.sub_eq_zero_of_le hle]
      · exact absurd hminus hzero.2.2.2.1
  rw [if_neg hminus, if_neg hminus, if_neg hminus]
  cases hpads : padsZeros flags p
  · -- spaces
    have hstd : ¬ (.zero ∈ flags ∧ p.given = none) := by
      rintro ⟨hmem, -⟩
      rw [padsZeros, decide_eq_true hmem] at hpads
      cases hpads
    rw [if_neg hstd]
    simp only [Bool.false_eq_true, if_false]
    constructor
    · intro h
      obtain ⟨hm, hspaces, hzeros, hhex⟩ := layout_inj hbase hfig (Option.some.inj h)
      rw [hm] at hzeros hspaces
      have hok : PrefixOk flags p f value := by
        by_contra hnot
        rcases sharp_of_not_prefixOk hnot hbase with hmore | ⟨h16, hne⟩
        · omega
        · exact hne (hhex h16)
      rw [hok.length_eq hbase, add_zero, add_zero, padSpaces_iff hlt] at hspaces
      exact ⟨hm, .inl ⟨hok, hspaces, .inr (.inr trivial)⟩⟩
    · rintro ⟨hm, ⟨hok, hpad, -⟩ | hzero⟩
      · obtain ⟨hsharp, hzeros⟩ := hok.eq hbase
        have hbetween := padEnd_count hpad.2
        rw [← padSpaces_iff hlt, hbetween, add_zero] at hpad
        rw [hm, hok.length_eq hbase, hsharp, hzeros, hbetween, hpad]
      · rw [padsZeros, decide_eq_true hzero.2.2.1] at hpads
        cases hpads
  · by_cases hstd : .zero ∈ flags ∧ p.given = none
    · -- zeros, in both
      rw [if_pos hstd]
      simp only [if_true]
      constructor
      · intro h
        obtain ⟨hm, hspaces, hzeros, hhex⟩ := layout_inj hbase hfig (Option.some.inj h)
        rw [hm] at hzeros
        refine ⟨hm, ?_⟩
        by_cases hok : PrefixOk flags p f value
        · obtain ⟨hsharp, hsame⟩ := hok.eq hbase
          rw [hok.length_eq hbase, hsharp, hsame] at hzeros
          have hcount : padCount (wrap (width - (intLen flags p.given f value : ℕ))) =
              given - intLen flags p.given f value := by omega
          exact .inl ⟨hok, (padZeros_iff hlt).mp hcount, .inr (.inl hstd.2)⟩
        · obtain ⟨h8, hmem, hvalue⟩ := octal_of_not_prefixOk hok hstd.2 hhex
          have hmore := (sharp_of_not_prefixOk hok hbase).resolve_right fun h16 => by omega
          have hn : (digitsText f value.natAbs).length = 0 := digits_nil_iff.mpr hvalue
          have hone : zerosText p.given f value = 1 := by
            rw [zerosText, hstd.2, hn]
            rfl
          have hlen : 1 ≤ intLen flags p.given f value := by
            rw [intLen]
            omega
          exact .inr ⟨h8, hmem, hstd.1, hminus, hvalue, hstd.2, by omega⟩
      · rintro ⟨hm, ⟨hok, hpad, -⟩ | hzero⟩
        · obtain ⟨hsharp, hzeros⟩ := hok.eq hbase
          rw [← padZeros_iff hlt] at hpad
          rw [hm, hok.length_eq hbase, hsharp, hzeros, hpad]
        · obtain ⟨hsign, hcode, hno, hzeros, hone, hcount, hlen⟩ := octalZero_eq hzero hlt hown hoct
          rw [hm, hcode, hcount, hone, hno, hzeros, hlen, layout_congr]
          · have hle := hzero.2.2.2.2.2.2
            change 1 + _ = 0 + _
            omega
          · intro h16
            have h8 := hzero.1
            omega
    · -- zeros in the code, spaces by the standard
      have hgiven := zeros_of_given hpads hstd
      rw [if_neg hstd]
      simp only [if_true]
      constructor
      · intro h
        obtain ⟨hm, hspaces, hzeros, hhex⟩ := layout_inj hbase hfig (Option.some.inj h)
        rw [hm] at hzeros
        have hok : PrefixOk flags p f value := by
          by_contra hnot
          rcases sharp_of_not_prefixOk hnot hbase with hmore | ⟨h16, hne⟩
          · omega
          · exact hne (hhex h16)
        obtain ⟨hsharp, hsame⟩ := hok.eq hbase
        rw [hok.length_eq hbase, hsharp, hsame] at hzeros
        have hcount : padCount (wrap (width - (intLen flags p.given f value : ℕ))) =
            given - intLen flags p.given f value := by omega
        exact ⟨hm, .inl ⟨hok, (padZeros_iff hlt).mp hcount, .inl (by omega)⟩⟩
      · rintro ⟨hm, ⟨hok, hpad, hwhere⟩ | hzero⟩
        · obtain ⟨hsharp, hzeros⟩ := hok.eq hbase
          have hle : given ≤ intLen flags p.given f value :=
            hwhere.resolve_right fun hno => hno.elim hgiven fun hfalse => by cases hfalse
          rw [← padZeros_iff hlt, Nat.sub_eq_zero_of_le hle] at hpad
          rw [hm, hok.length_eq hbase, hsharp, hzeros, hpad, Nat.sub_eq_zero_of_le hle, zero_add]
        · exact absurd hzero.2.2.2.2.2.1 hgiven

end

/-! ## What is read of an argument -/

section

variable {flags : List FlagChar} {p : Precision} {f : IntForm}

theorem toNat_append_mod (x y : BitVec 32) : (x ++ y).toNat % 2 ^ 32 = y.toNat := by
  rw [BitVec.toNat_append, ← Nat.shiftLeft_add_eq_or_of_lt y.isLt, Nat.shiftLeft_eq, Nat.mul_add_mod_self_right,
    Nat.mod_eq_of_lt y.isLt]

/-- A type that is not longer than a word. -/
theorem unsigned_eq (a : Args) (ap : ℕ) {q : Qualifier} (hq : q.bits ≤ 32) :
    a.unsigned ap q = (a.arg ap).toNat % 2 ^ q.bits := by
  have hdvd : 2 ^ q.bits ∣ 2 ^ 32 := Nat.pow_dvd_pow 2 hq
  rw [Args.unsigned, ← Nat.mod_mod_of_dvd _ hdvd, toNat_append_mod]

theorem unsigned_lt (a : Args) (ap : ℕ) (q : Qualifier) : a.unsigned ap q < 2 ^ q.bits :=
  Nat.mod_lt _ (Nat.two_pow_pos _)

theorem toInt_eq_signed {a : Args} {ap w : ℕ} {q : Qualifier} {x : BitVec w} (hw : q.bits = w) (hpos : 0 < w)
    (hx : a.unsigned ap q = x.toNat) : x.toInt = a.signed ap q := by
  obtain ⟨k, rfl⟩ := Nat.exists_eq_add_of_lt hpos
  have hpow : 2 ^ (0 + k + 1) = 2 * 2 ^ (0 + k) := pow_succ' 2 _
  rw [Args.signed, hx, hw, Nat.add_sub_cancel, BitVec.toInt_eq_toNat_cond]
  by_cases hlt : x.toNat < 2 ^ (0 + k)
  · rw [if_pos (by omega), if_pos hlt]
  · rw [if_neg (by omega), if_neg hlt]
    push_cast
    rfl

theorem unsigned_word {a : Args} {ap : ℕ} {q : Qualifier} (hq : q.bits = 32) : a.unsigned ap q = (a.arg ap).toNat := by
  rw [unsigned_eq a ap hq.le, hq, Nat.mod_eq_of_lt (a.arg ap).isLt]

theorem unsigned_short {a : Args} {ap w : ℕ} {q : Qualifier} (hq : q.bits = w) (hw : w ≤ 32) :
    a.unsigned ap q = ((a.arg ap).setWidth w).toNat := by
  rw [unsigned_eq a ap (hq.le.trans hw), hq, BitVec.toNat_setWidth]

theorem unsigned_longlong (a : Args) (ap : ℕ) : a.unsigned ap .ll = (a.arg (ap + 1) ++ a.arg ap).toNat :=
  Nat.mod_eq_of_lt (a.arg (ap + 1) ++ a.arg ap).isLt

theorem handleSign_eq (a : Args) (q : Qualifier) (ap : ℕ) :
    handleSign a q.code ap = (a.signed ap q, ap + q.words) := by
  cases q with
  | none => exact Prod.ext (toInt_eq_signed rfl (by decide) (unsigned_word rfl)) rfl
  | hh => exact Prod.ext (toInt_eq_signed rfl (by decide) (unsigned_short rfl (by decide))) rfl
  | h => exact Prod.ext (toInt_eq_signed rfl (by decide) (unsigned_short rfl (by decide))) rfl
  | l => exact Prod.ext (toInt_eq_signed rfl (by decide) (unsigned_word rfl)) rfl
  | ll => exact Prod.ext (toInt_eq_signed rfl (by decide) (unsigned_longlong a ap)) rfl
  | z => exact Prod.ext (toInt_eq_signed rfl (by decide) (unsigned_word rfl)) rfl
  | t => exact Prod.ext (toInt_eq_signed rfl (by decide) (unsigned_word rfl)) rfl

/-- `%to` and its like take a signed number. -/
theorem handleNosign_eq (a : Args) (q : Qualifier) (ap : ℕ) :
    ((handleNosign a q.code ap).1 % 2 ^ 64).toNat =
        (if q = .t ∧ 2 ^ 31 ≤ a.unsigned ap q then a.unsigned ap q + (2 ^ 64 - 2 ^ 32) else a.unsigned ap q) ∧
      (handleNosign a q.code ap).2 = ap + q.words := by
  have hnat : ∀ n : ℕ, n < 2 ^ 64 → ((n : ℤ) % 2 ^ 64).toNat = n := by omega
  have hlt := (a.arg ap).isLt
  have hshort : ∀ w ≤ 32, ((a.arg ap).setWidth w).toNat < 2 ^ 64 := by
    intro w hw
    rw [BitVec.toNat_setWidth]
    exact (Nat.mod_le _ _).trans_lt (hlt.trans (by norm_num))
  have hword : (a.arg ap).toNat < 2 ^ 64 := hlt.trans (by norm_num)
  cases q with
  | none => exact ⟨(hnat _ hword).trans (unsigned_word rfl).symm, rfl⟩
  | hh =>
      refine ⟨?_, rfl⟩
      rw [if_neg (fun h => by cases h.1), unsigned_short (w := 8) rfl (by decide)]
      exact hnat _ (hshort 8 (by decide))
  | h =>
      refine ⟨?_, rfl⟩
      rw [if_neg (fun h => by cases h.1), unsigned_short (w := 16) rfl (by decide)]
      exact hnat _ (hshort 16 (by decide))
  | l => exact ⟨(hnat _ hword).trans (unsigned_word rfl).symm, rfl⟩
  | ll =>
      refine ⟨?_, rfl⟩
      have hlong : (handleNosign a Qualifier.ll.code ap).1 = (a.arg (ap + 1) ++ a.arg ap).toInt := rfl
      rw [hlong, if_neg (fun h => by cases h.1), unsigned_longlong, BitVec.toInt_eq_toNat_cond]
      have hlt := (a.arg (ap + 1) ++ a.arg ap).isLt
      generalize (a.arg (ap + 1) ++ a.arg ap).toNat = n at hlt ⊢
      split_ifs <;> omega
  | z => exact ⟨(hnat _ hword).trans (unsigned_word rfl).symm, rfl⟩
  | t =>
      refine ⟨?_, rfl⟩
      have hlong : (handleNosign a Qualifier.t.code ap).1 = (a.arg ap).toInt := rfl
      rw [hlong, unsigned_word rfl, BitVec.toInt_eq_toNat_cond]
      simp only [true_and]
      split_ifs <;> omega

theorem signed_mem (a : Args) (ap : ℕ) (q : Qualifier) : -2 ^ 63 ≤ a.signed ap q ∧ a.signed ap q < 2 ^ 63 := by
  have hlt := unsigned_lt a ap q
  rw [Args.signed]
  cases q <;> simp only [Qualifier.bits] at hlt ⊢ <;> split_ifs <;> omega

/-- Whether all of a number is printed. -/
def FullValue (f : IntForm) (q : Qualifier) (value : ℤ) : Prop :=
  (f.base = 10 → value.natAbs < 2 ^ 32) ∧ (f.base ≠ 10 → q = .t → value < 2 ^ 31)

theorem signOf_signed {value : ℤ} (hf : f.signed = true) (hlow : -2 ^ 63 ≤ value) (hhigh : value < 2 ^ 63) :
    signOf (value % 2 ^ 64).toNat (intFlags flags p f) = (signText flags f value, value.natAbs) := by
  rw [signOf, signText, hf]
  simp only [intFlags, hf, decide_eq_true_eq, if_true]
  by_cases hneg : value < 0
  · rw [if_pos (by omega), if_pos hneg]
    exact Prod.ext rfl (by dsimp only; omega)
  · have hsame : (value % 2 ^ 64).toNat = value.natAbs := by omega
    rw [if_neg (by omega), if_neg hneg, hsame]
    split_ifs <;> rfl

theorem signOf_unsigned {num : ℕ} {value : ℤ} (hf : f.signed = false) :
    signOf num (intFlags flags p f) = (signText flags f value, num) := by
  rw [signOf, signText, hf]
  simp [intFlags, hf]

theorem base_form (v : IntConv) : v.form.base = 8 ∨ v.form.base = 10 ∨ v.form.base = 16 := by
  cases v <;> decide

/-- An integer conversion as `vsnprintf` does it. -/
theorem convert_int (a : Args) (d : Directive) (q : Qualifier) (v : IntConv) (hconv : d.conv = .int q v) (ap : ℕ)
    (width : ℤ) :
    convert a (d.read width) d.conv.byte ap =
      handleNumber (d.read width) (intFlags d.flags d.prec v.form) v.form.base
        (if v.form.signed then handleSign a q.code ap else handleNosign a q.code ap) := by
  have hflags : (d.read width).flag = ⟨false, decide (.minus ∈ d.flags), decide (.space ∈ d.flags),
      padsZeros d.flags d.prec, decide (.sharp ∈ d.flags), false, decide (.plus ∈ d.flags)⟩ := by
    rw [Directive.read, foldl_add]
    simp [Flags.none, padsZeros]
  have hqual : (d.read width).qualifier = q.code := by
    rw [Directive.read, hconv]
    rfl
  rw [convert, hconv, hqual, hflags]
  cases v <;> rfl

theorem convert_p (a : Args) (d : Directive) (hconv : d.conv = .p) (ap : ℕ) (width : ℤ) :
    convert a (d.read width) d.conv.byte ap =
      handleNumber (d.read width) (intFlags d.flags d.prec ⟨false, 16, false⟩) 16 ((a.arg ap).toNat, ap + 1) := by
  have hflags : (d.read width).flag = ⟨false, decide (.minus ∈ d.flags), decide (.space ∈ d.flags),
      padsZeros d.flags d.prec, decide (.sharp ∈ d.flags), false, decide (.plus ∈ d.flags)⟩ := by
    rw [Directive.read, foldl_add]
    simp [Flags.none, padsZeros]
  rw [convert, hconv, hflags]
  rfl

end

/-! ## A directive -/

/-- The width that is given. -/
def Width.given : Width → ℕ
  | none => 0
  | num w => w.value
  | star => 0

/-- The length of a string before it is padded. -/
def strLen (p : Precision) (s : List Byte) : ℕ :=
  match p.given with
  | none => s.length
  | some n => min n s.length

/-- The string of an argument. -/
def Args.string (a : Args) (ap : ℕ) : List Byte := if a.arg ap = 0 then nullString else a.str (a.arg ap)

/-- When a directive is printed by the standard, with `width` left by those before. There is no `*`; a character, a
string or a number is padded as it should be; a string without precision is shorter than 2 GiB; and a decimal number
fits into 32 bits, a `%to` or `%tx` into 31. -/
def Directive.Ok (d : Directive) (a : Args) (ap : ℕ) (width : ℤ) : Prop :=
  d.width ≠ .star ∧ d.prec ≠ .star ∧
    match d.conv with
    | .c => SamePad (if .minus ∈ d.flags then -2 ^ 31 else -2 ^ 31 + 1) (d.width.force width) d.width.given 1
    | .s =>
        (d.prec = .none → (a.string ap).length < 2 ^ 31) ∧
          SamePad (-2 ^ 31) (d.width.force width) d.width.given (strLen d.prec (a.string ap))
    | .p =>
        IntOk d.flags (d.width.force width) d.width.given d.prec ⟨false, 16, false⟩
          (a.value ap ⟨false, 16, false⟩ .none)
    | .int q v =>
        FullValue v.form q (a.value ap v.form q) ∧
          IntOk d.flags (d.width.force width) d.width.given d.prec v.form (a.value ap v.form q)

/-- What a directive leaves in `width`. -/
def Directive.widthAfter (d : Directive) (a : Args) (ap : ℕ) (width : ℤ) : ℤ :=
  match d.conv with
  | .c => if .minus ∈ d.flags then padGtEnd (d.width.force width) else padGtEnd (padGtEnd (d.width.force width))
  | .s =>
      let width := wrap (d.width.force width - strLen d.prec (a.string ap))
      if 0 < width then -1 else width
  | .p => d.width.force width
  | .int _ _ => d.width.force width

section

variable {a : Args} {ap : ℕ} {d : Directive} {width : ℤ}

theorem field_eq (hwidth : d.width ≠ .star) (hprec : d.prec ≠ .star) :
    d.field a ap = ⟨d.flags, d.width.given, d.prec.given, ap⟩ := by
  obtain ⟨flags, w, p, v⟩ := d
  rw [Directive.field]
  cases w with
  | none =>
      cases p with
      | none => rfl
      | num p => rfl
      | star => exact absurd rfl hprec
  | num w =>
      cases p with
      | none => rfl
      | num p => rfl
      | star => exact absurd rfl hprec
  | star => exact absurd rfl hwidth

theorem given_lt (w : Width) : w.given < 2 ^ 31 := by
  cases w with
  | none => decide
  | num w => exact w.lt
  | star => decide

theorem force_of_given {w : Width} (hpos : 0 < w.given) (width : ℤ) : w.force width = w.given := by
  cases w with
  | none => cases hpos
  | num w => rfl
  | star => cases hpos

/-- A directive is right if it prints the text, and takes the arguments, of the standard. -/
def Right (o : Option Effect) (text : List Byte) (ap : ℕ) : Prop := ∃ e, o = some e ∧ e.text = text ∧ e.ap = ap

theorem right_handleNumber {c : Conv} {flag : Flags} {base : ℕ} {num : ℤ × ℕ} {text : List Byte} :
    Right (handleNumber c flag base num) text num.2 ↔
      number (num.1 % 2 ^ 64).toNat flag base c.width c.precesion = some text := by
  rw [handleNumber, Right]
  cases number (num.1 % 2 ^ 64).toNat flag base c.width c.precesion with
  | none => simp
  | some t => simp [eq_comm]

theorem read_width : (d.read width).width = d.width.force width := rfl

theorem read_precesion : (d.read width).precesion = d.prec.value := rfl

theorem read_dot : (d.read width).dot = d.prec.dot := rfl

/-- The number that is printed for an unsigned one. -/
def codeUnsigned (q : Qualifier) (u : ℕ) : ℕ := if q = .t ∧ 2 ^ 31 ≤ u then u + (2 ^ 64 - 2 ^ 32) else u

theorem codeUnsigned_lt (a : Args) (ap : ℕ) (q : Qualifier) : codeUnsigned q (a.unsigned ap q) < 2 ^ 64 := by
  have hlt := unsigned_lt a ap q
  have hbits : 2 ^ q.bits ≤ 2 ^ 64 := Nat.pow_le_pow_right (by decide) (by cases q <;> decide)
  rw [codeUnsigned]
  split_ifs with ht
  · rw [ht.1] at hlt ⊢
    change _ < 2 ^ 32 at hlt
    omega
  · exact hlt.trans_le hbits

theorem low_codeUnsigned {f : IntForm} (a : Args) (ap : ℕ) (q : Qualifier) :
    low f.base (codeUnsigned q (a.unsigned ap q)) = (a.unsigned ap q : ℤ).natAbs ↔ FullValue f q (a.unsigned ap q) := by
  have hlt := unsigned_lt a ap q
  rw [FullValue, low, Int.natAbs_natCast, codeUnsigned]
  by_cases hten : f.base = 10
  · rw [if_pos hten]
    split_ifs with ht
    · rw [ht.1] at hlt ⊢
      change _ < 2 ^ 32 at hlt
      exact iff_of_true (by omega) ⟨fun _ => hlt, fun hne => absurd hten hne⟩
    · constructor
      · intro hmod
        exact ⟨fun _ => by omega, fun hne => absurd hten hne⟩
      · rintro ⟨hfull, -⟩
        exact Nat.mod_eq_of_lt (hfull hten)
  · rw [if_neg hten]
    split_ifs with ht
    · refine iff_of_false (by omega) fun h => ?_
      have hsmall := h.2 hten ht.1
      omega
    · refine iff_of_true rfl ⟨fun h => absurd h hten, fun _ hq => ?_⟩
      have hsmall := not_and.mp ht hq
      omega

theorem low_signed {f : IntForm} {value : ℤ} {q : Qualifier} (hten : f.base = 10) :
    low f.base value.natAbs = value.natAbs ↔ FullValue f q value := by
  rw [FullValue, low, if_pos hten]
  constructor
  · intro hmod
    exact ⟨fun _ => by omega, fun hne => absurd hten hne⟩
  · rintro ⟨hfull, -⟩
    exact Nat.mod_eq_of_lt (hfull hten)

theorem right_int {q : Qualifier} {v : IntConv} (hconv : d.conv = .int q v) :
    Right (convert a (d.read width) d.conv.byte ap)
        (intText d.flags d.width.given d.prec.given v.form (a.value ap v.form q)) (ap + q.words) ↔
      FullValue v.form q (a.value ap v.form q) ∧
        IntOk d.flags (d.width.force width) d.width.given d.prec v.form (a.value ap v.form q) := by
  have hbase := base_form v
  have hoct : v.form.base = 8 → v.form.signed = false := by cases v <;> decide
  have hown := fun h : 0 < d.width.given => force_of_given h width
  rw [convert_int a d q v hconv]
  cases hsigned : v.form.signed
  · have hvalue : a.value ap v.form q = a.unsigned ap q := by
      rw [Args.value, hsigned]
      rfl
    obtain ⟨hnum, hnext⟩ := handleNosign_eq a q ap
    rw [← codeUnsigned] at hnum
    simp only [Bool.false_eq_true, if_false]
    rw [← hnext, right_handleNumber, hnum, read_width, read_precesion, hvalue,
      number_iff hbase (codeUnsigned_lt a ap q) (signOf_unsigned hsigned) (given_lt d.width) hown hoct,
      low_codeUnsigned]
  · have hvalue : a.value ap v.form q = a.signed ap q := by
      rw [Args.value, hsigned]
      rfl
    have hten : v.form.base = 10 := by
      revert hsigned
      cases v <;> decide
    obtain ⟨hlow, hhigh⟩ := signed_mem a ap q
    have hnext : ap + q.words = (a.signed ap q, ap + q.words).2 := rfl
    simp only [if_true]
    rw [handleSign_eq, hnext, right_handleNumber, read_width, read_precesion, hvalue,
      number_iff hbase (by omega) (signOf_signed hsigned hlow hhigh) (given_lt d.width) hown hoct, low_signed hten]

theorem right_p (hconv : d.conv = .p) :
    Right (convert a (d.read width) d.conv.byte ap)
        (intText d.flags d.width.given d.prec.given ⟨false, 16, false⟩ (a.value ap ⟨false, 16, false⟩ .none)) (ap + 1) ↔
      IntOk d.flags (d.width.force width) d.width.given d.prec ⟨false, 16, false⟩
        (a.value ap ⟨false, 16, false⟩ .none) := by
  have hvalue : a.value ap ⟨false, 16, false⟩ .none = ((a.arg ap).toNat : ℤ) := by
    rw [Args.value, unsigned_word rfl]
    rfl
  have hlt := (a.arg ap).isLt
  have hnum : (((a.arg ap).toNat : ℤ) % 2 ^ 64).toNat = (a.arg ap).toNat := by omega
  have hlow : low 16 (a.arg ap).toNat = ((a.arg ap).toNat : ℤ).natAbs := rfl
  have hnext : ap + 1 = (((a.arg ap).toNat : ℤ), ap + 1).2 := rfl
  rw [convert_p a d hconv, hnext, right_handleNumber, read_width, read_precesion, hvalue, hnum]
  have hbase : IntForm.base ⟨false, 16, false⟩ = 8 ∨ IntForm.base ⟨false, 16, false⟩ = 10 ∨
      IntForm.base ⟨false, 16, false⟩ = 16 := .inr (.inr rfl)
  exact (number_iff hbase (hlt.trans (by norm_num)) (signOf_unsigned rfl) (given_lt d.width)
    (fun h => force_of_given h width) (fun _ => rfl)).trans (and_iff_right hlow)

theorem right_some {e : Effect} {text : List Byte} {next : ℕ} (hnext : e.ap = next) :
    Right (some e) text next ↔ e.text = text := by
  constructor
  · rintro ⟨e', he, htext, -⟩
    obtain rfl := Option.some.inj he
    exact htext
  · intro htext
    exact ⟨e, rfl, htext, hnext⟩

theorem read_left : (d.read width).flag.left = decide (.minus ∈ d.flags) := by
  rw [Directive.read, foldl_add]
  rfl

theorem convert_c (hconv : d.conv = .c) :
    convert a (d.read width) d.conv.byte ap = some (handleChar a (d.read width) ap) := by
  rw [hconv]
  rfl

theorem handleChar_eq {c : Conv} : handleChar a c ap =
    if c.flag.left then ⟨(a.arg ap).setWidth 8 :: List.replicate (padGtCount c.width) (ascii ' '), 1,
      padGtEnd c.width, ap + 1⟩
    else ⟨List.replicate (padGtCount c.width) (ascii ' ') ++
      (a.arg ap).setWidth 8 :: List.replicate (padGtCount (padGtEnd c.width)) (ascii ' '), 1,
      padGtEnd (padGtEnd c.width), ap + 1⟩ := by
  rw [handleChar]
  cases c.flag.left
  · simp [padGt_eq]
  · simp [padGt_eq]

theorem padGtCount_iff {w : ℤ} {given : ℕ} (hlt : given < 2 ^ 31) :
    padGtCount w = given - 1 ↔ SamePad (-2 ^ 31) w given (1 : ℕ) := by
  have hmem := wrap_mem (w - 1)
  rw [SamePad, padGtCount, Nat.cast_one]
  omega

/-- Behind a character there is no padding, or far too much. -/
theorem padGtCount_twice {w : ℤ} {given : ℕ} (hlt : given < 2 ^ 31) :
    padGtCount w + padGtCount (padGtEnd w) = given - 1 ↔ SamePad (-2 ^ 31 + 1) w given (1 : ℕ) := by
  have hmem := wrap_mem (w - 1)
  rw [SamePad, padGtCount, padGtCount, padGtEnd, Nat.cast_one]
  generalize wrap (w - 1) = left at hmem ⊢
  unfold wrap
  split_ifs <;> omega

theorem padGtEnd_count {w : ℤ} (h : -2 ^ 31 + 1 ≤ wrap (w - 1)) : padGtCount (padGtEnd w) = 0 := by
  have hmem := wrap_mem (w - 1)
  rw [padGtCount, padGtEnd]
  generalize wrap (w - 1) = left at hmem h ⊢
  unfold wrap
  split_ifs <;> omega

theorem right_c (hconv : d.conv = .c) :
    Right (convert a (d.read width) d.conv.byte ap) (padText d.flags d.width.given [(a.arg ap).setWidth 8]) (ap + 1) ↔
      SamePad (if .minus ∈ d.flags then -2 ^ 31 else -2 ^ 31 + 1) (d.width.force width) d.width.given (1 : ℕ) := by
  have hlt := given_lt d.width
  rw [convert_c hconv, handleChar_eq, read_left, read_width, padText, List.length_singleton]
  simp only [decide_eq_true_eq]
  by_cases hminus : .minus ∈ d.flags
  · rw [if_pos hminus, if_pos hminus, if_pos hminus, right_some rfl, ← padGtCount_iff hlt]
    constructor
    · intro h
      have hlen := congrArg List.length h
      simp at hlen
      omega
    · intro h
      dsimp only
      rw [h]
      rfl
  · rw [if_neg hminus, if_neg hminus, if_neg hminus, right_some rfl]
    constructor
    · intro h
      have hlen := congrArg List.length h
      simp at hlen
      rw [← padGtCount_twice hlt]
      omega
    · intro h
      have hafter := padGtEnd_count h.2
      rw [← padGtCount_twice hlt, hafter, add_zero] at h
      dsimp only
      rw [hafter, h]
      rfl

theorem convert_s (hconv : d.conv = .s) :
    convert a (d.read width) d.conv.byte ap = some (handleString a (d.read width) ap) := by
  rw [hconv]
  rfl

theorem handleString_eq {c : Conv} : handleString a c ap =
    let n := stringLen c (a.string ap)
    let width := wrap (c.width - n)
    ⟨(if c.flag.left then [] else List.replicate width.toNat (ascii ' ')) ++ (a.string ap).take n.toNat ++
      (if c.flag.left then List.replicate width.toNat (ascii ' ') else []), n.toNat,
      if 0 < width then -1 else width, ap + 1⟩ := by
  have hstring : (if a.arg ap = 0 then nullString else a.str (a.arg ap)) = a.string ap := rfl
  unfold handleString
  rw [hstring]
  generalize a.string ap = s
  dsimp only
  rw [stringLen_eq]
  generalize stringLen c s = n
  generalize wrap (c.width - n) = w
  by_cases hpos : 0 < w
  · cases hleft : c.flag.left
    · simp [hpos, padPost_eq]
    · simp [hpos, padPost_eq]
  · have hzero : w.toNat = 0 := by omega
    cases hleft : c.flag.left
    · simp [hpos, hzero]
    · simp [hpos, hzero]

theorem length_padded {left : Bool} {count : ℕ} {t : List Byte} :
    ((if left then [] else List.replicate count (ascii ' ')) ++ t ++
      (if left then List.replicate count (ascii ' ') else [])).length = count + t.length := by
  cases left
  · simp
  · simp [add_comm]

theorem length_padText {flags : List FlagChar} {given : ℕ} {t : List Byte} :
    (padText flags given t).length = given - t.length + t.length := by
  rw [padText]
  split_ifs
  · rw [List.length_append, List.length_replicate, add_comm]
  · rw [List.length_append, List.length_replicate]

theorem padText_iff {flags : List FlagChar} {given count : ℕ} {t : List Byte} :
    (if decide (.minus ∈ flags) then [] else List.replicate count (ascii ' ')) ++ t ++
        (if decide (.minus ∈ flags) then List.replicate count (ascii ' ') else []) = padText flags given t ↔
      count = given - t.length := by
  constructor
  · intro h
    have hlen := congrArg List.length h
    rw [length_padded, length_padText] at hlen
    omega
  · intro h
    rw [padText, h]
    simp only [decide_eq_true_eq]
    split_ifs
    · rw [List.nil_append]
    · rw [List.append_nil]

theorem samePad_iff {w : ℤ} {given len : ℕ} :
    (wrap (w - len)).toNat = given - len ↔ SamePad (-2 ^ 31) w given len := by
  have hmem := wrap_mem (w - len)
  rw [SamePad]
  omega

/-- A string of 2 GiB or more: less is printed than there is. -/
theorem length_lost {s : List Byte} (hlong : 2 ^ 31 ≤ s.length) (w : ℤ) :
    (wrap w).toNat + (wrap s.length).toNat < s.length := by
  have hmem := wrap_mem w
  unfold wrap at *
  omega

theorem right_s (hconv : d.conv = .s) (hprec : d.prec ≠ .star) :
    Right (convert a (d.read width) d.conv.byte ap)
        (padText d.flags d.width.given
          (match d.prec.given with
          | none => a.string ap
          | some n => (a.string ap).take n)) (ap + 1) ↔
      (d.prec = .none → (a.string ap).length < 2 ^ 31) ∧
        SamePad (-2 ^ 31) (d.width.force width) d.width.given (strLen d.prec (a.string ap)) := by
  rw [convert_s hconv, handleString_eq, right_some rfl, read_left, read_width]
  generalize a.string ap = s
  dsimp only
  cases hp : d.prec with
  | none =>
      have hlen : stringLen (d.read width) s = wrap s.length := by
        have hdot : (d.read width).dot = false := by
          rw [read_dot, hp]
          rfl
        rw [stringLen, hdot, if_neg Bool.false_ne_true]
      rw [hlen]
      dsimp only [Precision.given, strLen]
      by_cases hshort : s.length < 2 ^ 31
      · have hwrap : wrap s.length = s.length := wrap_of_mem (by omega) (by omega)
        rw [hwrap, Int.toNat_natCast, List.take_length, padText_iff, samePad_iff]
        exact (and_iff_right fun _ => hshort).symm
      · refine iff_of_false (fun h => ?_) fun h => hshort (h.1 rfl)
        have hlost := length_lost (Nat.le_of_not_lt hshort) (d.width.force width - wrap s.length)
        have hlength := congrArg List.length h
        rw [length_padded, length_padText, List.length_take] at hlength
        omega
  | num n =>
      have hlen : stringLen (d.read width) s = strLen (.num n) s := by
        have hstr : strLen (.num n) s = min n.value s.length := rfl
        have hvalue : Precision.value (.num n) = n.value := rfl
        rw [stringLen, read_dot, read_precesion, hp, hstr, hvalue]
        refine (if_pos rfl).trans ?_
        omega
      have htake : s.take (strLen (.num n) s) = s.take n.value := by
        change s.take (min n.value s.length) = _
        rw [← List.take_take, List.take_length]
      have hlength : (s.take n.value).length = strLen (.num n) s := by
        rw [List.length_take]
        rfl
      rw [hlen, Int.toNat_natCast, htake]
      dsimp only [Precision.given]
      rw [padText_iff, hlength, samePad_iff]
      exact (and_iff_right fun h => by cases h).symm
  | star => exact absurd hp hprec

/-- What a directive without `*` prints. -/
theorem right_directive (hwidth : d.width ≠ .star) (hprec : d.prec ≠ .star) :
    Right (convert a (d.read width) d.conv.byte ap) (d.text a ap) (d.next a ap) ↔ d.Ok a ap width := by
  rw [Directive.Ok, and_iff_right hwidth, and_iff_right hprec, Directive.text, Directive.next,
    field_eq hwidth hprec]
  cases hconv : d.conv with
  | c =>
      have hright : Right (convert a (d.read width) d.conv.byte ap) _ _ ↔ _ := right_c hconv
      rw [hconv] at hright
      exact hright
  | s =>
      have hright : Right (convert a (d.read width) d.conv.byte ap) _ _ ↔ _ := right_s hconv hprec
      rw [hconv] at hright
      exact hright
  | p =>
      have hright : Right (convert a (d.read width) d.conv.byte ap) _ _ ↔ _ := right_p hconv
      rw [hconv] at hright
      exact hright
  | int q v =>
      have hright : Right (convert a (d.read width) d.conv.byte ap) _ _ ↔ _ := right_int hconv
      rw [hconv] at hright
      exact hright

theorem widthAfter_eq {e : Effect} (hok : d.Ok a ap width) (he : convert a (d.read width) d.conv.byte ap = some e) :
    e.width = d.widthAfter a ap width := by
  obtain ⟨-, hprec, hok⟩ := hok
  rw [Directive.widthAfter]
  cases hconv : d.conv with
  | c =>
      rw [convert_c hconv, handleChar_eq, read_left, Option.some.injEq] at he
      subst he
      simp only [decide_eq_true_eq]
      split_ifs <;> rfl
  | s =>
      rw [convert_s hconv, handleString_eq, Option.some.injEq] at he
      subst he
      rw [hconv] at hok
      have hlen : stringLen (d.read width) (a.string ap) = strLen d.prec (a.string ap) := by
        cases hp : d.prec with
        | none =>
            have hshort := hok.1 hp
            have hstr : strLen .none (a.string ap) = (a.string ap).length := rfl
            rw [stringLen, read_dot, hp, hstr]
            exact (if_neg Bool.false_ne_true).trans (wrap_of_mem (by omega) (by omega))
        | num n =>
            have hstr : strLen (.num n) (a.string ap) = min n.value (a.string ap).length := rfl
            have hvalue : Precision.value (.num n) = n.value := rfl
            rw [stringLen, read_dot, read_precesion, hp, hstr, hvalue]
            refine (if_pos rfl).trans ?_
            omega
        | star => exact absurd hp hprec
      dsimp only
      rw [hlen]
      rfl
  | p =>
      rw [convert_p a d hconv, handleNumber, Option.map_eq_some_iff] at he
      obtain ⟨-, -, rfl⟩ := he
      rfl
  | int q v =>
      rw [convert_int a d q v hconv, handleNumber, Option.map_eq_some_iff] at he
      obtain ⟨-, -, rfl⟩ := he
      rfl

end

/-! ## A format -/

/-- What `vsnprintf` makes of a part of a format: the bytes, the next argument and `width`, whatever is behind it. -/
def Piece.Prints (p : Piece) (a : Args) (ap : ℕ) (width : ℤ) (o : Option Effect) : Prop :=
  ∀ rest, printAll a ap width (p.bytes ++ rest) =
    o.bind fun e => (printAll a e.ap e.width rest).map (Printed.behind e.text)

/-- When a part of a format is printed by the standard. -/
def Piece.Ok (a : Args) (ap : ℕ) (width : ℤ) : Piece → Prop
  | text _ _ => True
  | percent => True
  | dir d => d.Ok a ap width

/-- What it leaves in `width`. -/
def Piece.widthAfter (a : Args) (ap : ℕ) (width : ℤ) : Piece → ℤ
  | text _ _ => width
  | percent => width
  | dir d => d.widthAfter a ap width

/-- When all of a format is, with `width` left by what is before. -/
def AllOk (a : Args) (ap : ℕ) (width : ℤ) : (fmt : List Piece) → Prop
  | [] => True
  | p :: fmt => p.Ok a ap width ∧ AllOk a (p.next a ap) (p.widthAfter a ap width) fmt

/-- Every beginning of a format is printed by the standard, and takes the arguments of the standard. -/
def RightFrom (a : Args) (ap : ℕ) (width : ℤ) (fmt : List Piece) : Prop :=
  ∀ g, g <+: fmt → ∃ w, printAll a ap width (formatBytes g) = some ⟨c99Output a ap g, c99Next a ap g, w⟩

/-- `vsnprintf` prints a format by the standard, each directive from its own arguments. -/
def C99Right (a : Args) (fmt : List Piece) : Prop := RightFrom a 0 0 fmt

section

variable {a : Args} {ap : ℕ} {width : ℤ}

theorem prints_dir {d : Directive} (hwidth : d.width ≠ .star) (hprec : d.prec ≠ .star) :
    (Piece.dir d).Prints a ap width (convert a (d.read width) d.conv.byte ap) := by
  intro rest
  exact printAll_conv (reswitch_directive d hwidth hprec width)

/-- With a `*`, an argument is taken, and the width or the precision is lost with the directive. -/
theorem prints_star (a : Args) (ap : ℕ) (width : ℤ) {d : Directive} (hstar : d.width = .star ∨ d.prec = .star) :
    ∃ e, (Piece.dir d).Prints a ap width (some e) ∧ e.ap = ap + 1 := by
  obtain ⟨c, tail, hread, htail⟩ := reswitch_star d hstar width
  have hconv : convert a c (ascii '*') ap = some ⟨[], 1, if c.dot then c.width else (a.arg ap).toInt, ap + 1⟩ := rfl
  refine ⟨⟨tail, 1, if c.dot then c.width else (a.arg ap).toInt, ap + 1⟩, fun rest => ?_, rfl⟩
  change printAll a ap width (ascii '%' :: (d.bytes ++ rest)) = _
  rw [printAll_conv (hread rest), hconv, Option.bind_some, Option.bind_some, printAll_append htail, Option.map_map]
  rfl

theorem words_pos (v : Conversion) : 0 < v.words := by
  cases v with
  | int q v => cases q <;> exact Nat.zero_lt_succ _
  | _ => exact Nat.zero_lt_succ _

/-- A directive with `*` takes two arguments at least. -/
theorem next_star (a : Args) (ap : ℕ) {d : Directive} (hstar : d.width = .star ∨ d.prec = .star) :
    ap + 1 < d.next a ap := by
  have hpos := words_pos d.conv
  have hwidth : ∀ (s : Field) (w : Width),
      s.ap ≤ (s.withWidth a w).ap ∧ (w = .star → (s.withWidth a w).ap = s.ap + 1) := by
    intro s w
    cases w <;> simp [Field.withWidth]
  have hprec : ∀ (s : Field) (p : Precision),
      s.ap ≤ (s.withPrec a p).ap ∧ (p = .star → (s.withPrec a p).ap = s.ap + 1) := by
    intro s p
    cases p <;> simp [Field.withPrec]
  have hw := hwidth (Field.mk d.flags 0 none ap) d.width
  have hp := hprec ((Field.mk d.flags 0 none ap).withWidth a d.width) d.prec
  rw [Directive.next, Directive.field]
  dsimp only at hw
  rcases hstar with h | h
  · have hone := hw.2 h
    omega
  · have hone := hp.2 h
    omega

/-- What is made of a part of a format is right under its condition, and then leaves what it should in `width`. -/
theorem prints_piece (p : Piece) (a : Args) (ap : ℕ) (width : ℤ) :
    ∃ o, p.Prints a ap width o ∧ (Right o (p.c99 a ap) (p.next a ap) ↔ p.Ok a ap width) ∧
      (p.Ok a ap width → ∀ e ∈ o, e.width = p.widthAfter a ap width) := by
  cases p with
  | text b hb =>
      refine ⟨some ⟨[b], 1, width, ap⟩, fun rest => printAll_text hb, iff_of_true ⟨_, rfl, rfl, rfl⟩ trivial, ?_⟩
      rintro - e he
      obtain rfl := Option.mem_some.mp he
      rfl
  | percent =>
      refine ⟨some ⟨[ascii '%'], 1, width, ap⟩, fun rest => ?_, iff_of_true ⟨_, rfl, rfl, rfl⟩ trivial, ?_⟩
      · have hread : reswitch ⟨Flags.none, width, 0, false, 0⟩ (ascii '%' :: rest) =
            some (⟨Flags.none, width, 0, false, 0⟩, ascii '%', rest) := reswitch_last rfl rfl
        exact printAll_conv hread
      · rintro - e he
        obtain rfl := Option.mem_some.mp he
        rfl
  | dir d =>
      by_cases hstar : d.width = .star ∨ d.prec = .star
      · obtain ⟨e, hprints, hap⟩ := prints_star a ap width hstar
        have hnot : ¬ d.Ok a ap width := fun h => hstar.elim h.1 h.2.1
        refine ⟨some e, hprints, iff_of_false ?_ hnot, fun h => absurd h hnot⟩
        rintro ⟨e', he, -, hnext⟩
        obtain rfl := Option.some.inj he
        have hlt := next_star a ap hstar
        change e.ap = d.next a ap at hnext
        omega
      · obtain ⟨hwidth, hprec⟩ := not_or.mp hstar
        exact ⟨_, prints_dir hwidth hprec, right_directive hwidth hprec, fun hok e he => widthAfter_eq hok he⟩

theorem formatBytes_cons (p : Piece) (fmt : List Piece) : formatBytes (p :: fmt) = p.bytes ++ formatBytes fmt := rfl

theorem rightFrom_nil : RightFrom a ap width [] := by
  intro g hg
  obtain rfl := List.prefix_nil.mp hg
  exact ⟨width, printAll_nil⟩

/-- The first part of a format and the others. -/
theorem rightFrom_cons {p : Piece} {fmt : List Piece} {o : Option Effect} (hprints : p.Prints a ap width o) :
    RightFrom a ap width (p :: fmt) ↔
      ∃ e, o = some e ∧ e.text = p.c99 a ap ∧ e.ap = p.next a ap ∧ RightFrom a e.ap e.width fmt := by
  constructor
  · intro h
    obtain ⟨w, hone⟩ := h [p] ⟨fmt, rfl⟩
    rw [formatBytes_cons, hprints] at hone
    cases o with
    | none => cases hone
    | some e =>
        have hone' : (⟨e.text ++ [], e.ap, e.width⟩ : Printed) = ⟨p.c99 a ap ++ [], p.next a ap, w⟩ := by
          have hnil : printAll a e.ap e.width (formatBytes []) = some ⟨[], e.ap, e.width⟩ := printAll_nil
          rw [Option.bind_some, hnil] at hone
          exact Option.some.inj hone
        injection hone' with htext hnext hwidth
        rw [List.append_nil, List.append_nil] at htext
        refine ⟨e, rfl, htext, hnext, fun g hg => ?_⟩
        obtain ⟨w, hg'⟩ := h (p :: g) (List.cons_prefix_cons.mpr ⟨rfl, hg⟩)
        rw [formatBytes_cons, hprints, Option.bind_some, Option.map_eq_some_iff] at hg'
        obtain ⟨r, hr, hbehind⟩ := hg'
        obtain ⟨text, next, width'⟩ := r
        injection hbehind with htext' hnext' hwidth'
        rw [c99Output, ← htext, ← hnext] at htext'
        rw [c99Next, ← hnext] at hnext'
        obtain rfl := List.append_cancel_left htext'
        obtain rfl := hnext'
        exact ⟨width', hr⟩
  · rintro ⟨e, rfl, htext, hnext, hrest⟩ g hg
    cases g with
    | nil => exact ⟨width, printAll_nil⟩
    | cons p' g =>
        obtain ⟨rfl, hg'⟩ := List.cons_prefix_cons.mp hg
        obtain ⟨w, hw⟩ := hrest g hg'
        refine ⟨w, ?_⟩
        rw [formatBytes_cons, hprints, Option.bind_some, hw, c99Output, c99Next, ← htext, ← hnext]
        rfl

/-- A format is printed by the standard if and only if its parts are. -/
theorem rightFrom_iff (a : Args) (ap : ℕ) (width : ℤ) (fmt : List Piece) :
    RightFrom a ap width fmt ↔ AllOk a ap width fmt := by
  induction fmt generalizing ap width with
  | nil => exact iff_of_true rightFrom_nil trivial
  | cons p fmt ih =>
      obtain ⟨o, hprints, hright, hafter⟩ := prints_piece p a ap width
      rw [rightFrom_cons hprints, AllOk]
      constructor
      · rintro ⟨e, rfl, htext, hnext, hrest⟩
        have hok := hright.mp ⟨e, rfl, htext, hnext⟩
        rw [ih, hnext, hafter hok e rfl] at hrest
        exact ⟨hok, hrest⟩
      · rintro ⟨hok, hrest⟩
        obtain ⟨e, rfl, htext, hnext⟩ := hright.mpr hok
        refine ⟨e, rfl, htext, hnext, ?_⟩
        rw [ih, hnext, hafter hok e rfl]
        exact hrest

/-! ## The buffer -/

/-- `len` without what a directive counts. -/
theorem len_sub {len counted : ℕ} (hlt : len < 2 ^ 32) (hle : counted ≤ len) :
    (len + (2 ^ 32 - counted % 2 ^ 32)) % 2 ^ 32 = len - counted := by
  omega

theorem counted_le {c : Conv} {ch : Byte} {e : Effect} (h : convert a c ch ap = some e) :
    e.counted ≤ e.text.length + if ch = ascii '*' then 1 else 0 := by
  have hsize := size_convert a c ap ch
  rw [h, Option.map_some, convertSize] at hsize
  have hnum : ∀ (flag : Flags) (base : ℕ) (num : ℤ × ℕ), some e.size = numberSize c flag base num → e.counted = 0 := by
    intro flag base num heq
    rw [numberSize] at heq
    obtain ⟨n, -, hn⟩ := Option.map_eq_some_iff.mp heq.symm
    exact (congrArg Size.counted hn).symm
  have hof : ∀ s : Size, s.counted ≤ s.bytes → some e.size = some s → e.counted ≤ e.text.length := by
    intro s hle heq
    obtain rfl := Option.some.inj heq
    exact hle
  by_cases hstar : ch = ascii '*'
  · rw [if_neg (by rw [hstar]; decide), if_pos hstar] at hsize
    have hcounted : e.counted = 1 := congrArg Size.counted (Option.some.inj hsize)
    rw [if_pos hstar]
    omega
  rw [if_neg hstar, add_zero]
  rw [if_neg hstar] at hsize
  have hchar : (charSize c ap).counted ≤ (charSize c ap).bytes := by
    unfold charSize
    split_ifs <;> dsimp only <;> omega
  split_ifs at hsize
  · exact hof _ le_rfl hsize
  · exact hof _ hchar hsize
  · exact hof (stringSize a c ap) (Nat.le_add_right _ _) hsize
  · exact (hnum _ _ _ hsize).le.trans (Nat.zero_le _)
  · exact (hnum _ _ _ hsize).le.trans (Nat.zero_le _)
  · exact (hnum _ _ _ hsize).le.trans (Nat.zero_le _)
  · exact (hnum _ _ _ hsize).le.trans (Nat.zero_le _)
  · exact (hnum _ _ _ hsize).le.trans (Nat.zero_le _)
  · exact (hnum _ _ _ hsize).le.trans (Nat.zero_le _)
  · exact hof _ le_rfl hsize

/-- With room for the format and for what is printed, `vsnprintf` prints it. -/
theorem vsnprintfLoop_eq (a : Args) (len ap : ℕ) (width : ℤ) (out fmt : List Byte) {r : Printed} (hlt : len < 2 ^ 32)
    (hroom : fmt.length + r.text.length < len) (hprint : printAll a ap width fmt = some r) :
    vsnprintfLoop a len ap width out fmt = .done (out ++ r.text) := by
  induction hn : fmt.length using Nat.strong_induction_on generalizing len ap width out fmt r with
  | _ n ih =>
  subst hn
  cases fmt with
  | nil =>
      obtain rfl := Option.some.inj (printAll_nil.symm.trans hprint)
      rw [vsnprintfLoop, List.append_nil]
  | cons ch fmt =>
      have hpos : len ≠ 0 := by omega
      rw [List.length_cons] at hroom
      by_cases hch : ch = ascii '%'
      · subst hch
        cases hread : reswitch ⟨Flags.none, width, 0, false, 0⟩ fmt with
        | none =>
            rw [printAll, if_neg (not_not.mpr rfl)] at hprint
            split at hprint
            · cases hprint
            · rename_i hsome
              rw [hread] at hsome
              cases hsome
        | some x =>
            obtain ⟨c, ch, fmt'⟩ := x
            have hshort := length_reswitch hread
            rw [printAll_conv hread] at hprint
            rw [vsnprintfLoop_conv hpos hread]
            cases hconv : convert a c ch ap with
            | none =>
                rw [hconv] at hprint
                cases hprint
            | some e =>
                rw [hconv, Option.bind_some, Option.map_eq_some_iff] at hprint
                obtain ⟨r', hr', rfl⟩ := hprint
                have hcounted := counted_le hconv
                have htext : (r'.behind e.text).text.length = e.text.length + r'.text.length := List.length_append
                have hone : e.counted ≤ e.text.length + 1 := by
                  split_ifs at hcounted <;> omega
                dsimp only
                rw [len_sub hlt (by omega), ih fmt'.length (by rw [List.length_cons]; omega) _ _ _ _ _ (by omega)
                  (by omega) hr' rfl, List.append_assoc]
                rfl
      · rw [printAll_text hch, Option.map_eq_some_iff] at hprint
        obtain ⟨r', hr', rfl⟩ := hprint
        have htext : (r'.behind [ch]).text.length = 1 + r'.text.length := List.length_append
        rw [vsnprintfLoop_text hpos hch, ih fmt.length (Nat.lt_succ_self _) _ _ _ _ _ (by omega) (by omega) hr' rfl,
          List.append_assoc]
        rfl

/-- A part of a format without `*`: it does not count more than it prints. -/
theorem loop_piece {p : Piece} (hok : p.Ok a ap width) :
    ∃ e : Effect, e.text = p.c99 a ap ∧ e.ap = p.next a ap ∧ e.width = p.widthAfter a ap width ∧
      e.counted ≤ e.text.length ∧ ∀ len out rest, len ≠ 0 → len < 2 ^ 32 →
        vsnprintfLoop a len ap width out (p.bytes ++ rest) =
          vsnprintfLoop a ((len + (2 ^ 32 - e.counted % 2 ^ 32)) % 2 ^ 32) e.ap e.width (out ++ e.text) rest := by
  cases p with
  | text b hb =>
      refine ⟨⟨[b], 1, width, ap⟩, rfl, rfl, rfl, le_rfl, fun len out rest hlen hlt => ?_⟩
      rw [len_sub hlt (Nat.pos_of_ne_zero hlen)]
      exact vsnprintfLoop_text hlen hb
  | percent =>
      refine ⟨⟨[ascii '%'], 1, width, ap⟩, rfl, rfl, rfl, le_rfl, fun len out rest hlen _ => ?_⟩
      have hread : reswitch ⟨Flags.none, width, 0, false, 0⟩ (ascii '%' :: rest) =
          some (⟨Flags.none, width, 0, false, 0⟩, ascii '%', rest) := reswitch_last rfl rfl
      exact vsnprintfLoop_conv hlen hread
  | dir d =>
      obtain ⟨e, he, htext, hnext⟩ := (right_directive hok.1 hok.2.1).mpr hok
      have hchar : d.conv.byte ≠ ascii '*' := by
        intro h
        have hletter := convByte_letter d.conv
        rw [h] at hletter
        exact absurd hletter (by decide)
      have hcounted := counted_le he
      rw [if_neg hchar, add_zero] at hcounted
      refine ⟨e, htext, hnext, widthAfter_eq hok he, hcounted, fun len out rest hlen _ => ?_⟩
      have hread := reswitch_directive (r := rest) d hok.1 hok.2.1 width
      have hloop : vsnprintfLoop a len ap width out (ascii '%' :: (d.bytes ++ rest)) = _ :=
        vsnprintfLoop_conv hlen hread
      rw [he] at hloop
      exact hloop

theorem vsnprintfLoop_c99 (a : Args) (len ap : ℕ) (width : ℤ) (out : List Byte) (fmt : List Piece) (hlt : len < 2 ^ 32)
    (hroom : (c99Output a ap fmt).length < len) (hok : AllOk a ap width fmt) :
    vsnprintfLoop a len ap width out (formatBytes fmt) = .done (out ++ c99Output a ap fmt) := by
  induction fmt generalizing len ap width out with
  | nil =>
      rw [c99Output, List.append_nil]
      exact vsnprintfLoop.eq_1 a len ap width out
  | cons p fmt ih =>
      obtain ⟨e, htext, hnext, hwidth, hcounted, hloop⟩ := loop_piece hok.1
      rw [c99Output, List.length_append, ← htext] at hroom
      rw [formatBytes_cons, hloop _ _ _ (by omega) hlt, len_sub hlt (by omega), hnext, hwidth,
        ih _ _ _ _ (by omega) (by omega) hok.2, c99Output, htext, List.append_assoc]

end

/-- A format is printed by the standard, each directive from its own arguments, if and only if no directive has a `*` or
loses a part of its number, and what is left of the width before it, or its own, pads it as it should be; and then it is
what comes out of `vsnprintf`. -/
theorem vsnprintf_c99Iff (a : Args) (fmt : List Piece) :
    (C99Right a fmt ↔ AllOk a 0 0 fmt) ∧
      (AllOk a 0 0 fmt → ∀ size : BitVec 32, (c99Output a 0 fmt).length < size.toNat →
        vsnprintf a size (formatBytes fmt) = .done (c99Output a 0 fmt)) := by
  refine ⟨rightFrom_iff a 0 0 fmt, fun hok size hroom => ?_⟩
  exact vsnprintfLoop_c99 a size.toNat 0 0 [] fmt size.isLt hroom hok

/-- Arguments of which all but the second are 0. -/
def secondArg : Args := ⟨fun i => if i = 1 then 1 else 0, fun _ => []⟩

/-- `%lld` -/
def longDecimal : Directive := ⟨[], .none, .none, .int .ll .d⟩

/-- `%-5d` -/
def leftDecimal : Directive := ⟨[.minus], .num ⟨4, [], by decide⟩, .none, .int .none .d⟩

/-- `%5d` -/
def wideDecimal : Directive := ⟨[], .num ⟨4, [], by decide⟩, .none, .int .none .d⟩

/-- `%d` -/
def decimal : Directive := ⟨[], .none, .none, .int .none .d⟩

theorem loop_dir (a : Args) (len ap : ℕ) (width : ℤ) (out : List Byte) (fmt : List Piece) {d : Directive}
    (hlen : len ≠ 0) (hwidth : d.width ≠ .star) (hprec : d.prec ≠ .star) :
    vsnprintfLoop a len ap width out (formatBytes (.dir d :: fmt)) =
      match convert a (d.read width) d.conv.byte ap with
      | none => .endless
      | some e =>
          vsnprintfLoop a ((len + (2 ^ 32 - e.counted % 2 ^ 32)) % 2 ^ 32) e.ap e.width (out ++ e.text)
            (formatBytes fmt) :=
  vsnprintfLoop_conv hlen (reswitch_directive d hwidth hprec width)

theorem handleNumber_some {c : Conv} {flag : Flags} {base : ℕ} {num : ℤ × ℕ} {text : List Byte}
    (h : number (num.1 % 2 ^ 64).toNat flag base c.width c.precesion = some text) :
    handleNumber c flag base num = some ⟨text, 0, c.width, num.2⟩ := by
  rw [handleNumber, h]
  rfl

/-- `%d` behind `%5d` is padded too. -/
theorem convert_wide {d : Directive} {width : ℤ} (hconv : d.conv = .int .none .d) (hread : (d.read width).width = 5)
    (hprec : (d.read width).precesion = 0) (hflags : intFlags d.flags d.prec IntConv.d.form =
      ⟨true, false, false, false, false, false, false⟩) (ap : ℕ) :
    convert noArgs (d.read width) d.conv.byte ap =
      some ⟨[ascii ' ', ascii ' ', ascii ' ', ascii ' ', ascii '0'], 0, 5, ap + 1⟩ := by
  have hzero : ((if IntConv.d.form.signed = true then handleSign noArgs Qualifier.none.code ap
      else handleNosign noArgs Qualifier.none.code ap).1 % 2 ^ 64).toNat = 0 := rfl
  have hnumber : number 0 ⟨true, false, false, false, false, false, false⟩ 10 5 0 =
      some [ascii ' ', ascii ' ', ascii ' ', ascii ' ', ascii '0'] := by
    rw [number_eq]
    decide +kernel
  rw [← hzero, ← hflags, ← hread, ← hprec] at hnumber
  rw [convert_int noArgs d .none .d hconv]
  exact (handleNumber_some hnumber).trans (by rw [hread]; rfl)

/-- A number of `%lld` from 2 ^ 32 on is cut off, `%-5d` does not come to an end, and `%d` behind `%5d` is padded
too. -/
theorem vsnprintf_not_c99 :
    vsnprintf secondArg 64 (formatBytes [.dir longDecimal]) ≠ .done (c99Output secondArg 0 [.dir longDecimal]) ∧
      vsnprintf noArgs 64 (formatBytes [.dir leftDecimal]) ≠ .done (c99Output noArgs 0 [.dir leftDecimal]) ∧
      vsnprintf noArgs 64 (formatBytes [.dir wideDecimal, .dir decimal]) ≠
        .done (c99Output noArgs 0 [.dir wideDecimal, .dir decimal]) := by
  have hlong : convert secondArg (longDecimal.read 0) longDecimal.conv.byte 0 = some ⟨[ascii '0'], 0, 0, 2⟩ := by
    have hnumber : number ((if IntConv.d.form.signed = true then handleSign secondArg Qualifier.ll.code 0
        else handleNosign secondArg Qualifier.ll.code 0).1 % 2 ^ 64).toNat
        (intFlags longDecimal.flags longDecimal.prec IntConv.d.form) 10 (longDecimal.read 0).width
        (longDecimal.read 0).precesion = some [ascii '0'] := by
      rw [number_eq]
      decide +kernel
    exact (convert_int secondArg longDecimal .ll .d rfl 0 0).trans (handleNumber_some hnumber)
  have hleft : convert noArgs (leftDecimal.read 0) leftDecimal.conv.byte 0 = none := by
    have hnumber : number 0 ⟨true, true, false, false, false, false, false⟩ 10 5 0 = none := by
      rw [number_eq]
      decide +kernel
    rw [convert_int noArgs leftDecimal .none .d rfl, handleNumber]
    exact congrArg (Option.map _) hnumber
  refine ⟨?_, ?_, ?_⟩
  · have hdone : vsnprintf secondArg 64 (formatBytes [.dir longDecimal]) = .done [ascii '0'] := by
      rw [vsnprintf, loop_dir _ _ _ _ _ _ (by decide) (fun h => by cases h) (fun h => by cases h), hlong]
      exact vsnprintfLoop.eq_1 _ _ _ _ _
    rw [hdone]
    decide +kernel
  · rw [vsnprintf, loop_dir _ _ _ _ _ _ (by decide) (fun h => by cases h) (fun h => by cases h), hleft]
    exact fun h => by cases h
  · have hdone : vsnprintf noArgs 64 (formatBytes [.dir wideDecimal, .dir decimal]) =
        .done [ascii ' ', ascii ' ', ascii ' ', ascii ' ', ascii '0', ascii ' ', ascii ' ', ascii ' ', ascii ' ',
          ascii '0'] := by
      rw [vsnprintf, loop_dir _ _ _ _ _ _ (by decide) (fun h => by cases h) (fun h => by cases h),
        convert_wide rfl rfl rfl rfl]
      dsimp only
      rw [loop_dir _ _ _ _ _ _ (by decide) (fun h => by cases h) (fun h => by cases h), convert_wide rfl rfl rfl rfl]
      exact vsnprintfLoop.eq_1 _ _ _ _ _
    rw [hdone]
    decide +kernel

end Shaunos.Printf
