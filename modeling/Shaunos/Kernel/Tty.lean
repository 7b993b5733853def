import Mathlib
import Shaunos.Common.RingBuf
import Shaunos.Common.Run
import Shaunos.Net.Errno

/-!
# The queues of the terminal

Reference: `Kernel/console.c` (`tty_getc`, `tty_putc`, `tty_erc`, `tty_read`, `tty_output`, `tty_start`, `tty_echo`,
`tty_flush`, `tty_input`).

What is typed waits in `t_canq`, a ring of 512 cells, until `tty_read` takes it out. A backspace takes back the
newest byte: `tty_erc` moves the tail of the ring one cell back. Where the tail is 0, however, the cell before it is
511, and the function goes on from 255. And the cells are of type `char`: a byte from 128 on is read back as a
negative number, which `tty_read` takes for the end of the queue.

* `Denotes` — what the queue is to stand for: a list of bytes;
* `ttyInput_canq` — what a typed character does to the queue;
* `takeLine_ttyRead` — what is read, as long as no byte is negative;
* `queueRight_iff` — which sequences of calls the queue follows the list in.

`io_wait` is the point where `tty_read` sleeps: the call ends there, and `Call.woken` is the rest of it.
-/

namespace Shaunos.Console

/-! ## The code -/

/-- `NEXT`. -/
def next (x : ℕ) : ℕ := (x + 1) &&& 0x1FF

/-- `struct cbuf`. -/
structure Cbuf where
  cChead : ℕ
  cCtail : ℕ
  cCc : ℕ
  /-- The cells, which the code reads as `char`. -/
  cCbuf : ℕ → BitVec 8

def ttyGetc (p : Cbuf) : ℤ × Cbuf :=
  if p.cChead ≠ p.cCtail ∧ 0 < p.cCc then
    ((p.cCbuf p.cChead).toInt, { p with cChead := next p.cChead, cCc := p.cCc - 1 })
  else (-1, p)

def ttyPutc (p : Cbuf) (c : BitVec 32) : Cbuf :=
  if next p.cCtail ≠ p.cChead then
    { p with
      cCbuf := Function.update p.cCbuf p.cCtail (c.setWidth 8)
      cCtail := next p.cCtail
      cCc := p.cCc + 1 }
  else p

def ttyErc (p : Cbuf) : Cbuf :=
  if 0 < p.cCc then
    let ctail := if p.cCtail = 0 then 255 else p.cCtail
    { p with cCbuf := Function.update p.cCbuf ctail 0, cCtail := ctail - 1, cCc := p.cCc - 1 }
  else p

/-- The characters in `t_cc` that `tty_input` looks at. -/
structure ControlChars where
  vINTR : BitVec 8
  vQUIT : BitVec 8
  vEOF : BitVec 8
  vSTART : BitVec 8
  vSTOP : BitVec 8
  vSUSP : BitVec 8
  vEOL : BitVec 8
  vEOL2 : BitVec 8

/-- `struct tty`, as far as input goes. -/
structure Tty where
  tCanq : Cbuf
  tCancc : BitVec 32
  tOutq : Cbuf
  tState : BitVec 32
  tIflag : BitVec 32
  tLflag : BitVec 32
  tCc : ControlChars

def iNLCR : BitVec 32 := 0x40
def iGNCR : BitVec 32 := 0x80
def iCRNL : BitVec 32 := 0x100
def iXON : BitVec 32 := 0x200

def eCHO : BitVec 32 := 0x8
def eCHONL : BitVec 32 := 0x10
def eCHOCTL : BitVec 32 := 0x40
def iSIG : BitVec 32 := 0x80
def iCANON : BitVec 32 := 0x100
def eXTPROC : BitVec 32 := 0x800
def fLUSHO : BitVec 32 := 0x800000
def nOFLSH : BitVec 32 := 0x80000000

def tsTTSTOP : BitVec 32 := 0x100
def tsCNTTB : BitVec 32 := 0x1000
/-- `TS_BKSL | TS_CNTTB | TS_ERASE | TS_LNCH | TS_TYPEN`. -/
def tsLOCAL : BitVec 32 := 0x1F800

/-- `ISSET`. -/
abbrev IsSet (t f : BitVec 32) : Prop := t &&& f ≠ 0

/-- `CLR`. -/
def clr (t f : BitVec 32) : BitVec 32 := t &&& ~~~f

/-- `CCEQ`. A value of 255 stands for a character that is switched off. -/
abbrev CcEq (val : BitVec 8) (c : BitVec 32) : Prop := c = val.setWidth 32 ∧ val ≠ 0xFF

/-- `TTBREAKC`. -/
abbrev TtBreakC (cc : ControlChars) (c : BitVec 32) : Prop :=
  c = 10 ∨ ((c = cc.vEOF.setWidth 32 ∨ c = cc.vEOL.setWidth 32 ∨ c = cc.vEOL2.setWidth 32) ∧ c ≠ 0xFF)

/-- The loop of `tty_read`, with `cnt` bytes read so far: the bytes that follow them. A turn takes a byte out of the
queue, so `c_cc` turns are enough. -/
def readLoop (nbytes : ℕ) : ℕ → ℕ → Cbuf → List (BitVec 8) × Cbuf
  | 0, _, p => ([], p)
  | turns + 1, cnt, p =>
      let (c, p) := ttyGetc p
      if 0 ≤ c then
        if cnt + 1 = nbytes then ([BitVec.ofInt 8 c], p)
        else if c = 10 then ([BitVec.ofInt 8 c], p)
        else
          let (rest, p) := readLoop nbytes turns (cnt + 1) p
          (BitVec.ofInt 8 c :: rest, p)
      else ([], p)

/-- What `tty_read` returns, and the bytes in the buffer; `none` while it sleeps in `io_wait`. -/
abbrev Reply := Option (ℤ × List (BitVec 8))

/-- `tty_read` behind `io_wait`. -/
def ttyReadWoken (nbytes : ℕ) (t : Tty) : Reply × Tty :=
  let (bytes, p) := readLoop nbytes t.tCanq.cCc 0 t.tCanq
  (some (bytes.length, bytes), { t with tCanq := p })

def ttyRead (nonblock : Bool) (nbytes : ℕ) (t : Tty) : Reply × Tty :=
  if t.tCanq.cCc = 0 then
    if nonblock then (some (-Net.eWOULDBLOCK, []), t)
    else (none, t)
  else ttyReadWoken nbytes t

def ttyOutput (t : Tty) (c : BitVec 32) : Tty :=
  { t with tOutq := ttyPutc t.tOutq (c &&& 0xFF) }

/-- The loop of `tty_start`: the bytes that it writes to the device. -/
def startLoop : ℕ → Cbuf → List (BitVec 8) × Cbuf
  | 0, p => ([], p)
  | turns + 1, p =>
      let (c, p) := ttyGetc p
      if 0 ≤ c then
        let (rest, p) := startLoop turns p
        (BitVec.ofInt 8 c :: rest, p)
      else ([], p)

/-- What a call of `tty_input` does besides: the bytes for the device, and whether it wakes the readers. -/
structure Typed where
  tty : Tty
  written : List (BitVec 8)
  wakes : Bool

def ttyStart (t : Tty) (wakes : Bool) : Typed :=
  let (written, p) := startLoop t.tOutq.cCc t.tOutq
  { tty := { t with tOutq := p }, written, wakes }

def ttyEcho (t : Tty) (c : BitVec 32) : Tty :=
  let t := if ¬ IsSet t.tState tsCNTTB then { t with tLflag := clr t.tLflag fLUSHO } else t
  if (¬ IsSet t.tLflag eCHO ∧ (¬ IsSet t.tLflag eCHONL ∨ c = 10)) ∨ IsSet t.tLflag eXTPROC then t
  else if IsSet t.tLflag eCHOCTL ∧ ((c &&& 0xFF ≤ 0o37 ∧ c ≠ 9 ∧ c ≠ 10) ∨ c &&& 0xFF = 0o177) then
    let t := ttyOutput t 94
    let c := c &&& 0xFF
    ttyOutput t (if c = 0o177 then 63 else c + 64)
  else ttyOutput t c

/-- `tty_flush`, with the bits `FREAD` and `FWRITE` of `rw`. -/
def ttyFlush (t : Tty) (fREAD fWRITE : Bool) : Tty :=
  let t := if fREAD then { t with tState := clr t.tState tsLOCAL } else t
  if fWRITE then { t with tState := clr t.tState tsTTSTOP } else t

/-- `tty_input` from the label `restart` on. -/
def ttyRestart (t : Tty) (wakes : Bool) : Typed :=
  ttyStart { t with tState := clr t.tState tsTTSTOP } wakes

/-- The part of `tty_input` for `ICANON`, with what follows. -/
def ttyCanon (t : Tty) (lflag c : BitVec 32) : Typed :=
  if IsSet lflag iCANON then
    let t := { t with tCancc := t.tCancc + 1 }
    if c = 8 then
      let t := { t with tCanq := ttyErc t.tCanq, tCancc := t.tCancc - 1 }
      ttyRestart (if IsSet lflag eCHO then ttyOutput t c else t) false
    else
      let t := { t with tCanq := ttyPutc t.tCanq c }
      ttyRestart (if IsSet lflag eCHO then ttyOutput t c else t) (TtBreakC t.tCc c)
  else ttyRestart t false

/-- `tty_input` from the test for `'\r'` on. -/
def ttyMapped (t : Tty) (lflag iflag c : BitVec 32) : Typed :=
  if c = 13 then
    if IsSet iflag iGNCR then ttyStart t false
    else if IsSet iflag iCRNL then ttyCanon t lflag 10
    else ttyCanon t lflag c
  else if c = 10 ∧ IsSet iflag iNLCR then ttyCanon t lflag 13
  else ttyCanon t lflag c

def ttyInput (t : Tty) (c : BitVec 32) : Typed :=
  let lflag := t.tLflag
  let iflag := t.tIflag
  let cc := t.tCc
  if ¬ IsSet lflag eXTPROC then
    if IsSet lflag iSIG ∧ (CcEq cc.vINTR c ∨ CcEq cc.vQUIT c) then
      let t := if ¬ IsSet lflag nOFLSH then ttyFlush t true true else t
      ttyStart (ttyEcho t c) false
    else if IsSet lflag iSIG ∧ CcEq cc.vSUSP c then
      let t := if ¬ IsSet lflag nOFLSH then ttyFlush t true false else t
      ttyStart (ttyEcho t c) false
    else if IsSet iflag iXON ∧ CcEq cc.vSTOP c then
      let t := if ¬ IsSet t.tState tsTTSTOP then { t with tState := t.tState ||| tsTTSTOP } else t
      if ¬ CcEq cc.vSTART c then { tty := t, written := [], wakes := false }
      else ttyRestart t false
    else if IsSet iflag iXON ∧ CcEq cc.vSTART c then ttyRestart t false
    else ttyMapped t lflag iflag c
  else ttyCanon t lflag c

/-! ## What the queue is for -/

/-- The queue stands for the list of the bytes in it, the oldest one first. -/
structure Denotes (p : Cbuf) (q : List (BitVec 8)) : Prop where
  holds : RingBuf.Holds p.cCbuf 512 p.cChead p.cCtail q
  cc_eq : p.cCc = q.length
  cc_mod : (p.cCc : ℤ) = ((p.cCtail : ℤ) - p.cChead) % 512

/-- A byte comes behind the others, unless there are 511. -/
def enqueue (q : List (BitVec 8)) (b : BitVec 8) : List (BitVec 8) :=
  if q.length = 511 then q else q ++ [b]

/-- What a typed character is for the queue. -/
inductive Key where
  | byte (b : BitVec 8)
  | erase
  /-- It is for the terminal itself, or ignored. -/
  | none
deriving DecidableEq

/-- In canonical mode. -/
def Key.ofChar (t : Tty) (c : BitVec 32) : Key :=
  let cooked : BitVec 32 → Key := fun c => if c = 8 then .erase else .byte (c.setWidth 8)
  if IsSet t.tLflag eXTPROC then cooked c
  else if IsSet t.tLflag iSIG ∧ (CcEq t.tCc.vINTR c ∨ CcEq t.tCc.vQUIT c ∨ CcEq t.tCc.vSUSP c) then .none
  else if IsSet t.tIflag iXON ∧ (CcEq t.tCc.vSTOP c ∨ CcEq t.tCc.vSTART c) then .none
  else if c = 13 then
    if IsSet t.tIflag iGNCR then .none else cooked (if IsSet t.tIflag iCRNL then 10 else c)
  else cooked (if c = 10 ∧ IsSet t.tIflag iNLCR then 13 else c)

def Key.apply (q : List (BitVec 8)) : Key → List (BitVec 8)
  | byte b => enqueue q b
  | erase => q.dropLast
  | none => q

/-- The bytes up to a newline, with it. -/
def upToNewline : List (BitVec 8) → List (BitVec 8)
  | [] => []
  | b :: q => if b = 10 then [b] else b :: upToNewline q

/-- What is read from the list: at most `nbytes` bytes of the first line. With `nbytes` 0 there is no limit. -/
def takeLine (nbytes : ℕ) (q : List (BitVec 8)) : List (BitVec 8) :=
  if nbytes = 0 then upToNewline q else (upToNewline q).take nbytes

/-! ## Sequences of calls -/

inductive Call where
  | putc (c : BitVec 32)
  | getc
  | erc
  | input (c : BitVec 32)
  | read (nonblock : Bool) (nbytes : ℕ)
  /-- A reader that has slept in `io_wait` goes on. -/
  | woken (nbytes : ℕ)

/-- What a call returns, and what it does. -/
def Call.run (t : Tty) : Call → Reply × Tty
  | putc c => (some (0, []), { t with tCanq := ttyPutc t.tCanq c })
  | getc => (some ((ttyGetc t.tCanq).1, []), { t with tCanq := (ttyGetc t.tCanq).2 })
  | erc => (some (0, []), { t with tCanq := ttyErc t.tCanq })
  | input c => (some (0, []), (ttyInput t c).tty)
  | read nonblock nbytes => ttyRead nonblock nbytes t
  | woken nbytes => ttyReadWoken nbytes t

/-- Some bytes are read from the list. -/
def replyLine (nbytes : ℕ) (q : List (BitVec 8)) : Reply × List (BitVec 8) :=
  (some ((takeLine nbytes q).length, takeLine nbytes q), q.drop (takeLine nbytes q).length)

/-- What a call should return, and what it should do to the list. -/
def Call.spec (t : Tty) (q : List (BitVec 8)) : Call → Reply × List (BitVec 8)
  | putc c => (some (0, []), enqueue q (c.setWidth 8))
  | getc => (some (q.head?.elim (-1) fun b => (b.toNat : ℤ), []), q.tail)
  | erc => (some (0, []), q.dropLast)
  | input c => (some (0, []), (Key.ofChar t c).apply q)
  | read nonblock nbytes =>
      if q = [] then (if nonblock then some (-Net.eWOULDBLOCK, []) else none, q) else replyLine nbytes q
  | woken nbytes => replyLine nbytes q

/-- The terminal, and the list that its queue should stand for. No code reads the list. -/
structure TtyRun where
  tty : Tty
  queued : List (BitVec 8)

def TtyRun.step (s : TtyRun) (c : Call) : Option TtyRun :=
  some { tty := (c.run s.tty).2, queued := (c.spec s.tty s.queued).2 }

/-- The call returns what it should, and the queue stands for the list that it should stand for. -/
def TtyRun.Right (s : TtyRun) (c : Call) : Prop :=
  (c.run s.tty).1 = (c.spec s.tty s.queued).1 ∧ Denotes (c.run s.tty).2.tCanq (c.spec s.tty s.queued).2

/-- A byte may be taken back: the queue is empty, or its tail is not at the start of the ring. -/
def TtyRun.MayErase (s : TtyRun) : Prop := s.queued = [] ∨ s.tty.tCanq.cCtail ≠ 0

/-- The condition on a call. -/
def TtyRun.Fits (s : TtyRun) : Call → Prop
  | .putc _ => True
  | .getc => ∀ b ∈ s.queued.head?, b < 128
  | .erc => s.MayErase
  | .input c => Key.ofChar s.tty c = .erase → s.MayErase
  | .read _ nbytes | .woken nbytes => ∀ b ∈ takeLine nbytes s.queued, b < 128

instance TtyRun.decidableMayErase (s : TtyRun) : Decidable s.MayErase :=
  inferInstanceAs (Decidable (s.queued = [] ∨ s.tty.tCanq.cCtail ≠ 0))

instance TtyRun.decidableFits (s : TtyRun) : ∀ c, Decidable (s.Fits c)
  | .putc _ => isTrue trivial
  | .getc => Option.decidableForallMem _
  | .erc => s.decidableMayErase
  | .input c => inferInstanceAs (Decidable (Key.ofChar s.tty c = .erase → s.MayErase))
  | .read _ nbytes | .woken nbytes => List.decidableBAll _ (takeLine nbytes s.queued)

/-! ## The three operations -/

theorem next_eq {x : ℕ} (hx : x < 512) : next x = RingBuf.place 512 x 1 := by
  rw [next, RingBuf.place_mod hx (by omega)]
  exact Nat.and_two_pow_sub_one_eq_mod (x + 1) 9

namespace Denotes

variable {p : Cbuf} {q : List (BitVec 8)} {b : BitVec 8}

theorem of_holds (h : RingBuf.Holds p.cCbuf 512 p.cChead p.cCtail q) (hcc : p.cCc = q.length) : Denotes p q where
  holds := h
  cc_eq := hcc
  cc_mod := by
    have hhead := h.head_lt
    have hlen := h.length_lt
    have htail := h.tail_eq
    rw [RingBuf.place] at htail
    split_ifs at htail <;> omega

theorem cc_pos (h : Denotes p q) (hq : q ≠ []) : 0 < p.cCc :=
  h.cc_eq ▸ List.length_pos_iff.mpr hq

theorem cc_eq_zero (h : Denotes p []) : p.cCc = 0 := h.cc_eq

/-- `tty_putc` puts its byte behind the others, if there is room. -/
theorem putc (h : Denotes p q) (c : BitVec 32) : Denotes (ttyPutc p c) (enqueue q (c.setWidth 8)) := by
  have hnext := next_eq h.holds.tail_lt
  have hfull := h.holds.isFull_iff
  have hlen := h.holds.length_lt
  rw [ttyPutc, enqueue, hnext]
  by_cases hq : q.length = 511
  · rw [if_pos hq, if_neg (not_not.mpr (hfull.mpr (by omega)))]
    exact h
  · rw [if_neg hq, if_pos fun heq => hq (by have := hfull.mp heq; omega)]
    refine of_holds (h.holds.put (by omega)) ?_
    rw [h.cc_eq, List.length_append, List.length_singleton]

theorem getc_nil (h : Denotes p []) : ttyGetc p = (-1, p) := by
  rw [ttyGetc, if_neg]
  rintro ⟨_, hcc⟩
  exact absurd h.cc_eq_zero (by omega)

/-- `tty_getc` takes out the oldest byte. It returns it as a `char`. -/
theorem getc_cons (h : Denotes p (b :: q)) :
    (ttyGetc p).1 = b.toInt ∧ Denotes (ttyGetc p).2 q := by
  have hne : p.cChead ≠ p.cCtail := fun heq => List.cons_ne_nil b q (h.holds.isEmpty_iff.mp heq)
  have ⟨hb, hrest⟩ := h.holds.get
  rw [ttyGetc, if_pos ⟨hne, h.cc_pos (List.cons_ne_nil b q)⟩]
  refine ⟨congrArg BitVec.toInt hb, of_holds ?_ ?_⟩
  · dsimp only
    rw [next_eq h.holds.head_lt]
    exact hrest
  · dsimp only
    rw [h.cc_eq, List.length_cons, Nat.add_sub_cancel]

theorem erc_nil (h : Denotes p []) : ttyErc p = p := by
  rw [ttyErc, if_neg (by rw [h.cc_eq_zero]; omega)]

/-- `tty_erc` takes out the newest byte, unless the tail is at the start of the ring. -/
theorem erc_append (h : Denotes p (q ++ [b])) (htail : p.cCtail ≠ 0) : Denotes (ttyErc p) q := by
  have hlt := h.holds.tail_lt
  have hback : RingBuf.place 512 (p.cCtail - 1) 1 = p.cCtail := by
    rw [RingBuf.place, if_pos (by omega)]
    omega
  have hholds : RingBuf.Holds p.cCbuf 512 p.cChead (RingBuf.place 512 (p.cCtail - 1) 1) (q ++ [b]) :=
    hback.symm ▸ h.holds
  have herase := hholds.erase (by omega : p.cCtail - 1 < 512) (c := 0)
  rw [hback] at herase
  rw [ttyErc, if_pos (h.cc_pos (by simp)), if_neg htail]
  refine of_holds herase ?_
  dsimp only
  rw [h.cc_eq, List.length_append, List.length_singleton, Nat.add_sub_cancel]

/-- With the tail at the start of the ring it goes to a wrong cell, and the count does not fit it any more. -/
theorem not_erc_of_tail {q' : List (BitVec 8)} (h : Denotes p q) (hq : q ≠ []) (htail : p.cCtail = 0) :
    ¬ Denotes (ttyErc p) q' := by
  intro hbad
  have hpos := h.cc_pos hq
  have hmod := h.cc_mod
  have hhead := h.holds.head_lt
  have hmod' := hbad.cc_mod
  rw [ttyErc, if_pos hpos, if_pos htail] at hmod'
  dsimp only at hmod'
  rw [htail] at hmod
  omega

/-- What becomes of the queue when a byte is taken back. -/
theorem erc_iff (h : Denotes p q) : Denotes (ttyErc p) q.dropLast ↔ q = [] ∨ p.cCtail ≠ 0 := by
  constructor
  · intro hright
    by_contra hno
    push Not at hno
    exact h.not_erc_of_tail hno.1 hno.2 hright
  · intro hok
    rcases q.eq_nil_or_concat' with rfl | ⟨l, c, rfl⟩
    · rw [h.erc_nil]
      exact h
    · rw [List.dropLast_concat]
      exact h.erc_append (hok.resolve_left (by simp))

end Denotes

/-! ## Reading -/

theorem toInt_nonneg_iff {b : BitVec 8} : 0 ≤ b.toInt ↔ b < 128 := by
  have hlt := b.isLt
  rw [BitVec.toInt_eq_toNat_cond, BitVec.lt_def]
  split_ifs <;> simp <;> omega

theorem takeLine_nil (n : ℕ) : takeLine n [] = [] := by
  rw [takeLine]
  split_ifs
  · rfl
  · exact List.take_nil

theorem takeLine_cons (n : ℕ) (b : BitVec 8) (q : List (BitVec 8)) :
    takeLine n (b :: q) = if n = 1 ∨ b = 10 then [b] else b :: takeLine (n - 1) q := by
  rw [takeLine, upToNewline]
  by_cases hb : b = 10
  · rw [if_pos hb, if_pos (Or.inr hb)]
    split_ifs with hn
    · rfl
    · exact List.take_of_length_le (by rw [List.length_singleton]; omega)
  · rw [if_neg hb]
    rcases n with _ | _ | n
    · rw [if_pos rfl, if_neg (not_or.mpr ⟨by omega, hb⟩), takeLine, if_pos rfl]
    · rw [if_neg (by omega), if_pos (Or.inl rfl), List.take_succ_cons, List.take_zero]
    · rw [if_neg (by omega), if_neg (not_or.mpr ⟨by omega, hb⟩), takeLine, if_neg (by omega), List.take_succ_cons]
      rfl

/-- Whatever is in the queue: no negative byte gets into the buffer. -/
theorem lt_of_mem_readLoop {nbytes turns cnt : ℕ} {p : Cbuf} :
    ∀ b ∈ (readLoop nbytes turns cnt p).1, b < 128 := by
  induction turns generalizing cnt p with
  | zero =>
      intro b hb
      exact absurd hb List.not_mem_nil
  | succ turns ih =>
      intro b hb
      have hbyte : 0 ≤ (ttyGetc p).1 → BitVec.ofInt 8 (ttyGetc p).1 < 128 := by
        intro hc
        rw [ttyGetc] at hc ⊢
        split_ifs at hc ⊢
        · rw [BitVec.ofInt_toInt]
          exact toInt_nonneg_iff.mp hc
        · omega
      rw [readLoop] at hb
      dsimp only at hb
      split_ifs at hb with hc hn hnl
      · rw [List.mem_singleton.mp hb]
        exact hbyte hc
      · rw [List.mem_singleton.mp hb]
        exact hbyte hc
      · rcases List.mem_cons.mp hb with rfl | hrest
        · exact hbyte hc
        · exact ih b hrest
      · exact absurd hb List.not_mem_nil

/-- The loop of `tty_read` takes out what it is to take out, if none of it is negative. -/
theorem readLoop_spec {nbytes turns cnt : ℕ} {p : Cbuf} {q : List (BitVec 8)} (h : Denotes p q)
    (hturns : q.length ≤ turns) (hcnt : cnt < nbytes ∨ nbytes = 0)
    (hpos : ∀ b ∈ takeLine (nbytes - cnt) q, b < 128) :
    (readLoop nbytes turns cnt p).1 = takeLine (nbytes - cnt) q ∧
      Denotes (readLoop nbytes turns cnt p).2 (q.drop (takeLine (nbytes - cnt) q).length) := by
  induction turns generalizing cnt p q with
  | zero =>
      obtain rfl := List.eq_nil_of_length_eq_zero (Nat.le_zero.mp hturns)
      rw [readLoop, takeLine_nil]
      exact ⟨rfl, h⟩
  | succ turns ih =>
      rw [readLoop]
      cases q with
      | nil =>
          rw [h.getc_nil, takeLine_nil]
          exact ⟨rfl, h⟩
      | cons b q =>
          have ⟨hval, hrest⟩ := h.getc_cons
          have hlen : q.length ≤ turns := Nat.le_of_succ_le_succ hturns
          rw [takeLine_cons] at hpos ⊢
          generalize ttyGetc p = r at hval hrest ⊢
          obtain ⟨c, p'⟩ := r
          obtain rfl : c = b.toInt := hval
          have hb : b < 128 := hpos b (by split_ifs <;> simp)
          have hnl : b.toInt = 10 ↔ b = 10 := by
            rw [← BitVec.toInt_inj]
            exact Iff.rfl
          simp only [if_pos (toInt_nonneg_iff.mpr hb), BitVec.ofInt_toInt, hnl]
          by_cases hn : cnt + 1 = nbytes
          · rw [if_pos hn, if_pos (Or.inl (by omega))]
            exact ⟨rfl, hrest⟩
          · rw [if_neg hn]
            by_cases hb10 : b = 10
            · rw [if_pos hb10, if_pos (Or.inr hb10)]
              exact ⟨rfl, hrest⟩
            · have hor : ¬ (nbytes - cnt = 1 ∨ b = 10) := by
                rintro (h1 | h2)
                · omega
                · exact hb10 h2
              rw [if_neg hb10, if_neg hor]
              rw [if_neg hor] at hpos
              have hsub : nbytes - cnt - 1 = nbytes - (cnt + 1) := by omega
              rw [hsub] at hpos ⊢
              have ⟨hbytes, hden⟩ := ih hrest hlen (by omega) fun c hc => hpos c (List.mem_cons_of_mem b hc)
              exact ⟨congrArg (b :: ·) hbytes, hden⟩

/-- What `tty_read` does behind `io_wait`: right if and only if the bytes that it is to take out are not negative. -/
theorem ttyReadWoken_iff {nbytes : ℕ} {t : Tty} {q : List (BitVec 8)} (h : Denotes t.tCanq q) :
    ((ttyReadWoken nbytes t).1 = (replyLine nbytes q).1 ∧
        Denotes (ttyReadWoken nbytes t).2.tCanq (replyLine nbytes q).2) ↔
      ∀ b ∈ takeLine nbytes q, b < 128 := by
  constructor
  · rintro ⟨hreply, _⟩ b hb
    have hbytes : (readLoop nbytes t.tCanq.cCc 0 t.tCanq).1 = takeLine nbytes q :=
      congrArg Prod.snd (Option.some.inj hreply)
    exact lt_of_mem_readLoop b (hbytes.symm ▸ hb)
  · intro hpos
    have hroom : 0 < nbytes ∨ nbytes = 0 := by omega
    have ⟨hbytes, hden⟩ := readLoop_spec h (le_of_eq h.cc_eq.symm) hroom hpos
    exact ⟨congrArg (fun l : List (BitVec 8) => some ((l.length : ℤ), l)) hbytes, hden⟩

/-! ## Typing -/

/-- Nothing happens to the queue, and the terminal stays in its mode. -/
structure SameInput (t t' : Tty) : Prop where
  canq : t'.tCanq = t.tCanq
  canon : t'.tLflag &&& iCANON = t.tLflag &&& iCANON

namespace SameInput

variable {t t' t'' : Tty}

theorem refl (t : Tty) : SameInput t t := ⟨rfl, rfl⟩

theorem trans (h : SameInput t t') (h' : SameInput t' t'') : SameInput t t'' :=
  ⟨h'.canq.trans h.canq, h'.canon.trans h.canon⟩

theorem output (t : Tty) (c : BitVec 32) : SameInput t (ttyOutput t c) := ⟨rfl, rfl⟩

theorem start (t : Tty) (wakes : Bool) : SameInput t (ttyStart t wakes).tty := ⟨rfl, rfl⟩

theorem restart (t : Tty) (wakes : Bool) : SameInput t (ttyRestart t wakes).tty := ⟨rfl, rfl⟩

theorem flush (t : Tty) (r w : Bool) : SameInput t (ttyFlush t r w) := by
  cases r <;> cases w <;> exact ⟨rfl, rfl⟩

theorem echo (t : Tty) (c : BitVec 32) : SameInput t (ttyEcho t c) := by
  have hclr : (clr t.tLflag fLUSHO) &&& iCANON = t.tLflag &&& iCANON := by
    rw [clr, BitVec.and_assoc]
    congr 1
  rw [ttyEcho]
  generalize hu : (if ¬ IsSet t.tState tsCNTTB then { t with tLflag := clr t.tLflag fLUSHO } else t) = u
  have hsame : SameInput t u := by
    rw [← hu]
    split_ifs
    · exact refl t
    · exact ⟨rfl, hclr⟩
  dsimp only
  split_ifs
  · exact hsame
  · exact hsame.trans ((output _ _).trans (output _ _))
  · exact hsame.trans ((output _ _).trans (output _ _))
  · exact hsame.trans (output _ _)

end SameInput

/-- A character is put into the queue, or takes a byte out. -/
theorem ttyCanon_canq (t : Tty) {lflag : BitVec 32} (c : BitVec 32) (hcanon : IsSet lflag iCANON) :
    (ttyCanon t lflag c).tty.tCanq = (if c = 8 then ttyErc t.tCanq else ttyPutc t.tCanq c) ∧
      (ttyCanon t lflag c).tty.tLflag = t.tLflag := by
  rw [ttyCanon, if_pos hcanon]
  by_cases hc : c = 8
  · rw [if_pos hc, if_pos hc]
    split_ifs <;> exact ⟨rfl, rfl⟩
  · rw [if_neg hc, if_neg hc]
    split_ifs <;> exact ⟨rfl, rfl⟩

/-- What a key does to the queue. -/
def Key.Does (p p' : Cbuf) : Key → Prop
  | byte b => ∃ c : BitVec 32, c.setWidth 8 = b ∧ p' = ttyPutc p c
  | erase => p' = ttyErc p
  | none => p' = p

/-- A call of `tty_input` does to the queue what the key does, and the terminal stays in its mode. -/
structure Key.DoneBy (t t' : Tty) (k : Key) : Prop where
  does : k.Does t.tCanq t'.tCanq
  canon : t'.tLflag &&& iCANON = t.tLflag &&& iCANON

theorem SameInput.doneBy {t t' : Tty} (h : SameInput t t') : Key.none.DoneBy t t' := ⟨h.canq, h.canon⟩

/-- A character that gets as far as the queue. -/
theorem ttyCanon_doneBy {t : Tty} (c : BitVec 32) (hcanon : IsSet t.tLflag iCANON) :
    (if c = 8 then Key.erase else Key.byte (c.setWidth 8)).DoneBy t (ttyCanon t t.tLflag c).tty := by
  have ⟨hcanq, hflag⟩ := ttyCanon_canq t c hcanon
  refine ⟨?_, by rw [hflag]⟩
  rw [hcanq]
  by_cases hc : c = 8
  · rw [if_pos hc, if_pos hc]
    rfl
  · rw [if_neg hc, if_neg hc]
    exact ⟨c, rfl, rfl⟩

theorem ttyMapped_doneBy {t : Tty} (c : BitVec 32) (hcanon : IsSet t.tLflag iCANON) :
    (if c = 13 then
        if IsSet t.tIflag iGNCR then Key.none
        else if (if IsSet t.tIflag iCRNL then 10 else c) = 8 then Key.erase
        else Key.byte ((if IsSet t.tIflag iCRNL then 10 else c).setWidth 8)
      else if (if c = 10 ∧ IsSet t.tIflag iNLCR then 13 else c) = 8 then Key.erase
      else Key.byte ((if c = 10 ∧ IsSet t.tIflag iNLCR then 13 else c).setWidth 8)).DoneBy t
      (ttyMapped t t.tLflag t.tIflag c).tty := by
  rw [ttyMapped]
  by_cases hcr : c = 13
  · rw [if_pos hcr, if_pos hcr]
    by_cases hign : IsSet t.tIflag iGNCR
    · rw [if_pos hign, if_pos hign]
      exact (SameInput.start t false).doneBy
    · rw [if_neg hign, if_neg hign]
      by_cases hmap : IsSet t.tIflag iCRNL
      · simp only [if_pos hmap]
        exact ttyCanon_doneBy 10 hcanon
      · simp only [if_neg hmap]
        exact ttyCanon_doneBy c hcanon
  · rw [if_neg hcr, if_neg hcr]
    by_cases hmap : c = 10 ∧ IsSet t.tIflag iNLCR
    · simp only [if_pos hmap]
      exact ttyCanon_doneBy 13 hcanon
    · simp only [if_neg hmap]
      exact ttyCanon_doneBy c hcanon

/-- A character that is for the terminal itself. -/
theorem signal_doneBy (t : Tty) (c : BitVec 32) (r w : Bool) :
    Key.none.DoneBy t
      (ttyStart (ttyEcho (if ¬ IsSet t.tLflag nOFLSH then ttyFlush t r w else t) c) false).tty := by
  have hsame : SameInput t (if ¬ IsSet t.tLflag nOFLSH then ttyFlush t r w else t) := by
    split_ifs
    · exact .refl t
    · exact .flush t r w
  exact (hsame.trans ((SameInput.echo _ c).trans (SameInput.start _ _))).doneBy

theorem ttyInput_doneBy {t : Tty} (c : BitVec 32) (hcanon : IsSet t.tLflag iCANON) :
    (Key.ofChar t c).DoneBy t (ttyInput t c).tty := by
  rw [ttyInput, Key.ofChar]
  dsimp only
  by_cases hext : IsSet t.tLflag eXTPROC
  · rw [if_neg (not_not.mpr hext), if_pos hext]
    exact ttyCanon_doneBy c hcanon
  rw [if_pos hext, if_neg hext]
  by_cases hint : IsSet t.tLflag iSIG ∧ (CcEq t.tCc.vINTR c ∨ CcEq t.tCc.vQUIT c)
  · have hsig : IsSet t.tLflag iSIG ∧ (CcEq t.tCc.vINTR c ∨ CcEq t.tCc.vQUIT c ∨ CcEq t.tCc.vSUSP c) :=
      ⟨hint.1, hint.2.imp_right Or.inl⟩
    rw [if_pos hint, if_pos hsig]
    exact signal_doneBy t c true true
  rw [if_neg hint]
  by_cases hsusp : IsSet t.tLflag iSIG ∧ CcEq t.tCc.vSUSP c
  · have hsig : IsSet t.tLflag iSIG ∧ (CcEq t.tCc.vINTR c ∨ CcEq t.tCc.vQUIT c ∨ CcEq t.tCc.vSUSP c) :=
      ⟨hsusp.1, Or.inr (Or.inr hsusp.2)⟩
    rw [if_pos hsusp, if_pos hsig]
    exact signal_doneBy t c true false
  have hnosig : ¬ (IsSet t.tLflag iSIG ∧ (CcEq t.tCc.vINTR c ∨ CcEq t.tCc.vQUIT c ∨ CcEq t.tCc.vSUSP c)) := by
    rintro ⟨hset, hchar⟩
    rcases hchar with hc | hc | hc
    · exact hint ⟨hset, Or.inl hc⟩
    · exact hint ⟨hset, Or.inr hc⟩
    · exact hsusp ⟨hset, hc⟩
  rw [if_neg hsusp, if_neg hnosig]
  by_cases hstop : IsSet t.tIflag iXON ∧ CcEq t.tCc.vSTOP c
  · have hflow : IsSet t.tIflag iXON ∧ (CcEq t.tCc.vSTOP c ∨ CcEq t.tCc.vSTART c) := ⟨hstop.1, Or.inl hstop.2⟩
    rw [if_pos hstop, if_pos hflow]
    split_ifs <;> exact SameInput.doneBy ⟨rfl, rfl⟩
  rw [if_neg hstop]
  by_cases hstart : IsSet t.tIflag iXON ∧ CcEq t.tCc.vSTART c
  · have hflow : IsSet t.tIflag iXON ∧ (CcEq t.tCc.vSTOP c ∨ CcEq t.tCc.vSTART c) := ⟨hstart.1, Or.inr hstart.2⟩
    rw [if_pos hstart, if_pos hflow]
    exact (SameInput.restart t false).doneBy
  have hnoflow : ¬ (IsSet t.tIflag iXON ∧ (CcEq t.tCc.vSTOP c ∨ CcEq t.tCc.vSTART c)) := by
    rintro ⟨hset, hchar⟩
    rcases hchar with hc | hc
    · exact hstop ⟨hset, hc⟩
    · exact hstart ⟨hset, hc⟩
  rw [if_neg hstart, if_neg hnoflow]
  exact ttyMapped_doneBy c hcanon

/-! ## Sequences of calls -/

/-- The queue stands for the list, in canonical mode. -/
structure TtyRun.Inv (s : TtyRun) : Prop where
  denotes : Denotes s.tty.tCanq s.queued
  canon : IsSet s.tty.tLflag iCANON

/-- The queue is empty, wherever in the ring it starts. -/
structure TtyRun.Fresh (s : TtyRun) : Prop where
  head_lt : s.tty.tCanq.cChead < 512
  tail_eq : s.tty.tCanq.cCtail = s.tty.tCanq.cChead
  cc_eq : s.tty.tCanq.cCc = 0
  queued : s.queued = []
  canon : IsSet s.tty.tLflag iCANON

theorem TtyRun.Fresh.inv {s : TtyRun} (h : s.Fresh) : s.Inv where
  denotes := by
    rw [h.queued]
    refine .of_holds ?_ h.cc_eq
    rw [h.tail_eq]
    exact .nil h.head_lt
  canon := h.canon

/-- When a byte is taken back as it should be. -/
theorem TtyRun.Inv.mayErase_iff {s : TtyRun} (h : s.Inv) :
    Denotes (ttyErc s.tty.tCanq) s.queued.dropLast ↔ s.MayErase := h.denotes.erc_iff

/-- When the oldest byte is returned as it should be. -/
theorem TtyRun.Inv.getc_iff {s : TtyRun} (h : s.Inv) : s.Right .getc ↔ s.Fits .getc := by
  have hden := h.denotes
  rw [TtyRun.Right, TtyRun.Fits, Call.run, Call.spec]
  generalize s.queued = q at hden
  cases q with
  | nil =>
      rw [hden.getc_nil]
      exact iff_of_true ⟨rfl, hden⟩ (fun b hb => by simp at hb)
  | cons b q =>
      have ⟨hval, hrest⟩ := hden.getc_cons
      rw [hval]
      constructor
      · rintro ⟨hreply, _⟩ c hc
        obtain rfl : b = c := by simpa using hc
        have hnat : b.toInt = b.toNat := congrArg Prod.fst (Option.some.inj hreply)
        exact toInt_nonneg_iff.mp (by omega)
      · intro hb
        have hpos : 0 ≤ b.toInt := toInt_nonneg_iff.mpr (hb b (by simp))
        have hnat : b.toInt = b.toNat := by
          rw [BitVec.toInt_eq_toNat_cond] at hpos ⊢
          split_ifs at hpos ⊢ <;> omega
        refine ⟨?_, hrest⟩
        rw [hnat]
        rfl

/-- A call is answered right, and leaves the queue right, if and only if it meets its condition. -/
theorem TtyRun.Inv.right_iff {s : TtyRun} (h : s.Inv) (c : Call) : s.Right c ↔ s.Fits c := by
  cases c with
  | putc c => exact iff_of_true ⟨rfl, h.denotes.putc c⟩ trivial
  | getc => exact h.getc_iff
  | erc => exact (and_iff_right rfl).trans h.mayErase_iff
  | input c =>
      have hdone := (ttyInput_doneBy c h.canon).does
      rw [TtyRun.Right, TtyRun.Fits, Call.run, Call.spec]
      refine (and_iff_right rfl).trans ?_
      dsimp only
      generalize (ttyInput s.tty c).tty.tCanq = p at hdone ⊢
      cases hkey : Key.ofChar s.tty c with
      | byte b =>
          rw [hkey] at hdone
          obtain ⟨c', rfl, rfl⟩ := hdone
          exact iff_of_true (h.denotes.putc c') nofun
      | erase =>
          rw [hkey] at hdone
          obtain rfl : p = ttyErc s.tty.tCanq := hdone
          exact h.mayErase_iff.trans (imp_iff_right rfl).symm
      | none =>
          rw [hkey] at hdone
          obtain rfl : p = s.tty.tCanq := hdone
          exact iff_of_true h.denotes nofun
  | read nonblock nbytes =>
      have hden := h.denotes
      rw [TtyRun.Right, Call.run, Call.spec, ttyRead]
      by_cases hq : s.queued = []
      · have hfits : s.Fits (.read nonblock nbytes) := by
          intro b hb
          rw [hq, takeLine_nil] at hb
          exact absurd hb List.not_mem_nil
        have hcc : s.tty.tCanq.cCc = 0 := by rw [hden.cc_eq, hq, List.length_nil]
        refine iff_of_true ?_ hfits
        rw [if_pos hcc, if_pos hq]
        cases nonblock <;> exact ⟨rfl, hden⟩
      · rw [if_neg (hden.cc_pos hq).ne', if_neg hq]
        exact ttyReadWoken_iff hden
  | woken nbytes => exact ttyReadWoken_iff h.denotes

/-- A call that meets its condition keeps the invariant. -/
theorem TtyRun.Inv.step {s t : TtyRun} {c : Call} (h : s.Inv) (hfits : s.Fits c) (hstep : s.step c = some t) :
    t.Inv := by
  obtain rfl := Option.some.inj hstep
  refine ⟨((h.right_iff c).mpr hfits).2, ?_⟩
  cases c with
  | input c =>
      change (ttyInput s.tty c).tty.tLflag &&& iCANON ≠ 0
      rw [(ttyInput_doneBy c h.canon).canon]
      exact h.canon
  | read nonblock nbytes =>
      change IsSet (ttyRead nonblock nbytes s.tty).2.tLflag iCANON
      rw [ttyRead]
      split_ifs <;> exact h.canon
  | putc _ | getc | erc | woken _ => exact h.canon

/-- In a sequence of calls on an empty queue, all calls find the list and return what they should if and only if no
byte is taken back while the tail of a queue with bytes in it is at the start of the ring, and no byte from 128 on is
to be read. -/
theorem queueRight_iff {s : TtyRun} (h : s.Fresh) (cs : List Call) :
    AllCalls TtyRun.step TtyRun.Right s cs ↔ AllCalls TtyRun.step TtyRun.Fits s cs :=
  allCalls_iff_of_inv TtyRun.Inv (fun _ c hinv => hinv.right_iff c) (fun _ _ _ hinv hfits hstep => hinv.step hfits hstep)
    h.inv cs

/-- The terminal as `console_fs_init` leaves it, but for the place in the ring: it has gone round `head` cells. -/
def initTty (head : ℕ) : Tty where
  tCanq := { cChead := head, cCtail := head, cCc := 0, cCbuf := fun _ => 0 }
  tCancc := 0
  tOutq := { cChead := 0, cCtail := 0, cCc := 0, cCbuf := fun _ => 0 }
  tState := 0
  tIflag := iCRNL
  tLflag := iXON ||| iSIG ||| iCANON ||| eCHO ||| eCHOCTL ||| 1
  tCc := { vINTR := 3, vQUIT := 28, vEOF := 4, vSTART := 17, vSTOP := 19, vSUSP := 25, vEOL := 0, vEOL2 := 0 }

theorem initTty_fresh {head : ℕ} (h : head < 512) : TtyRun.Fresh { tty := initTty head, queued := [] } where
  head_lt := h
  tail_eq := rfl
  cc_eq := rfl
  queued := rfl
  canon := by
    change (iXON ||| iSIG ||| iCANON ||| eCHO ||| eCHOCTL ||| 1) &&& iCANON ≠ 0
    decide

/-- `ab`, a backspace and a newline are typed, and the line is read. -/
theorem queueRight_iff_line :
    AllCalls TtyRun.step TtyRun.Right { tty := initTty 0, queued := [] }
      [.input 97, .input 98, .input 8, .input 13, .read false 80] :=
  (queueRight_iff (initTty_fresh (by decide)) _).mpr (by decide +kernel)

/-- After 511 bytes that were typed and read, a byte is typed and taken back: the tail goes to 254. -/
theorem erase_at_wrap : ¬ ∀ s : TtyRun, s.Fresh → ∀ cs, AllCalls TtyRun.step TtyRun.Right s cs := by
  intro hall
  have hcalls := hall _ (initTty_fresh (by decide : 511 < 512)) [.input 97, .input 8]
  have hden := (hcalls.2 _ rfl).1.2
  exact absurd hden.cc_mod (by decide)

end Shaunos.Console
