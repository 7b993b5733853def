import Mathlib.Data.Int.Basic
import Shaunos.Common.Bytes
import Shaunos.Common.RingLists

/-!
# The BGET heap

Reference: `Kernel/bget.c`, `Include/kernel/bget.h`, as configured there: `SizeQuant` is 4 and `BestFit` is set.

The heap lies in byte memory. A buffer starts with a `struct bhead` of two `bufsize` fields, `prevfree` and
`bsize`; a free buffer has the links `flink` and `blink` of the free list behind them. `fl` is the address of
`freelist`. A failed `assert` is `none`, and so is a scan of the free list that does not end; `NULL` is 0.
-/

namespace Shaunos.Mm.Bget

/-! ## Words in memory -/

/-- What is left of a number in a `bufsize`, a `long` of 32 bits. -/
def bufsize (x : ℤ) : ℤ := x.bmod (2 ^ 32)

/-- A `bufsize` in memory. -/
def getSize (m : Mem) (a : ℕ) : ℤ := bufsize (m.get32 a)

def setSize (m : Mem) (a : ℕ) (v : ℤ) : Mem := m.set32 a (v % 2 ^ 32).toNat

/-- `(char *) p + k`. -/
def addr (p : ℕ) (k : ℤ) : ℕ := ((p + k) % 2 ^ 32).toNat

/-- `b->bh.prevfree`. -/
def prevfree (m : Mem) (b : ℕ) : ℤ := getSize m b

/-- `b->bh.bsize`. -/
def bsize (m : Mem) (b : ℕ) : ℤ := getSize m (b + 4)

/-- `b->ql.flink`. -/
def flink (m : Mem) (b : ℕ) : ℕ := m.get32 (b + 8)

/-- `b->ql.blink`. -/
def blink (m : Mem) (b : ℕ) : ℕ := m.get32 (b + 12)

def setPrevfree (m : Mem) (b : ℕ) (v : ℤ) : Mem := setSize m b v

def setBsize (m : Mem) (b : ℕ) (v : ℤ) : Mem := setSize m (b + 4) v

def setFlink (m : Mem) (b v : ℕ) : Mem := m.set32 (b + 8) v

def setBlink (m : Mem) (b v : ℕ) : Mem := m.set32 (b + 12) v

/-! ## The free list -/

/-- The assertions `b->ql.blink->ql.flink == b` and `b->ql.flink->ql.blink == b`. -/
def Linked (m : Mem) (b : ℕ) : Prop := flink m (blink m b) = b ∧ blink m (flink m b) = b

instance (m : Mem) (b : ℕ) : Decidable (Linked m b) := inferInstanceAs (Decidable (_ ∧ _))

/-- `b->ql.blink->ql.flink = b->ql.flink; b->ql.flink->ql.blink = b->ql.blink`. -/
def dechain (m : Mem) (b : ℕ) : Mem :=
  let m := setFlink m (blink m b) (flink m b)
  setBlink m (flink m b) (blink m b)

/-- `b->ql.flink = &freelist; b->ql.blink = freelist.ql.blink; freelist.ql.blink = b;
b->ql.blink->ql.flink = b`. -/
def enchain (m : Mem) (fl b : ℕ) : Mem :=
  let m := setFlink m b fl
  let m := setBlink m b (blink m fl)
  let m := setBlink m fl b
  setFlink m (blink m b) b

/-! ## `bget` -/

/-- The size of the buffer for a request: `SizeQ` at least, a multiple of `SizeQuant`, and the overhead. -/
def getSizeFor (requested : ℤ) : ℤ :=
  let size := if requested < 8 then 8 else requested
  let size := 4 * (bufsize (size + 3) / 4)
  bufsize (size + 8)

/-- The scan for the best fit. -/
def scan (m : Mem) (fl : ℕ) (size : ℤ) : (fuel : ℕ) → (b best : ℕ) → Option ℕ
  | 0, _, _ => none
  | fuel + 1, b, best =>
      if b = fl then some best
      else
        let best := if size ≤ bsize m b ∧ (best = fl ∨ bsize m b < bsize m best) then b else best
        scan m fl size fuel (flink m b) best

/-- The upper part of a free buffer goes to the caller, the rest stays on the free list. -/
def split (m : Mem) (b : ℕ) (size : ℤ) : Option (ℕ × Mem) :=
  let ba := addr b (bsize m b - size)
  let bn := addr ba size
  if prevfree m bn = bsize m b then
    let m := setBsize m b (bsize m b - size)
    let m := setPrevfree m ba (bsize m b)
    let m := setBsize m ba (-size)
    let m := setPrevfree m bn 0
    some (addr ba 8, m)
  else none

/-- The whole free buffer goes to the caller. -/
def giveWhole (m : Mem) (b : ℕ) : Option (ℕ × Mem) :=
  let ba := addr b (bsize m b)
  if prevfree m ba = bsize m b ∧ Linked m b then
    let m := dechain m b
    let m := setBsize m b (-bsize m b)
    let m := setPrevfree m ba 0
    some (b + 8, m)
  else none

/-- The second loop of `bget`, which starts at the best fit. -/
def serve (m : Mem) (fl : ℕ) (size : ℤ) : (fuel : ℕ) → (b : ℕ) → Option (ℕ × Mem)
  | 0, _ => none
  | fuel + 1, b =>
      if b = fl then some (0, m)
      else if size ≤ bsize m b then
        -- the difference is compared as an unsigned number
        if 16 < (bsize m b - size) % 2 ^ 32 then split m b size else giveWhole m b
      else serve m fl size fuel (flink m b)

def bget (m : Mem) (fl : ℕ) (requested : ℤ) : Option (ℕ × Mem) :=
  if 0 < requested then
    let size := getSizeFor requested
    (scan m fl size (2 ^ 32) (flink m fl) fl).bind fun best => serve m fl size (2 ^ 32) best
  else none

/-! ## `brel` -/

/-- The buffer joins the free buffer before it, or goes on the free list. -/
def release (m : Mem) (fl b : ℕ) : Option (ℕ × Mem) :=
  if prevfree m b ≠ 0 then
    let size := bsize m b
    let p := addr b (-prevfree m b)
    if bsize m p = prevfree m b then some (p, setBsize m p (bsize m p - size)) else none
  else if Linked m fl then
    let m := enchain m fl b
    some (b, setBsize m b (-bsize m b))
  else none

/-- The free buffer `b` joins the one behind it when that one is free, and the buffer behind is told. -/
def joinNext (m : Mem) (b : ℕ) : Option Mem :=
  let bn := addr b (bsize m b)
  if 0 < bsize m bn then
    if prevfree m (addr bn (bsize m bn)) = bsize m bn ∧ Linked m bn then
      let m := dechain m bn
      let m := setBsize m b (bsize m b + bsize m bn)
      let bn := addr b (bsize m b)
      if bsize m bn < 0 then some (setPrevfree m bn (bsize m b)) else none
    else none
  else if bsize m bn < 0 then some (setPrevfree m bn (bsize m b)) else none

def brel (m : Mem) (fl buf : ℕ) : Option Mem :=
  let b := addr buf (-8)
  if buf ≠ 0 ∧ bsize m b < 0 ∧ prevfree m (addr b (-bsize m b)) = 0 then
    (release m fl b).bind fun r => joinNext r.2 r.1
  else none

/-! ## `bpool` -/

/-- The end sentinel. -/
def eSent : ℤ := -2 ^ 31

def bpool (m : Mem) (fl buf : ℕ) (len : ℤ) : Option Mem :=
  let len := 4 * (len / 4)
  -- compared as unsigned numbers
  if (len - 8) % 2 ^ 32 ≤ -(eSent + 1) then
    let m := setPrevfree m buf 0
    if Linked m fl then
      let m := enchain m fl buf
      let len := len - 8
      let m := setBsize m buf len
      let bn := addr buf len
      let m := setPrevfree m bn len
      some (setBsize m bn eSent)
    else none
  else none

/-! ## Reading back what was written -/

variable {m m' : Mem} {a b c p fl n v : ℕ} {x y k : ℤ}

theorem bufsize_of_lt (hlo : -2 ^ 31 ≤ x) (hhi : x < 2 ^ 31) : bufsize x = x := by
  rw [bufsize]
  apply Int.bmod_eq_of_le <;> omega

theorem getSize_setSize_self : getSize (setSize m a x) a = bufsize x := by
  have hpos : 0 ≤ x % 2 ^ 32 := Int.emod_nonneg x (by decide)
  have hlt : x % 2 ^ 32 < 2 ^ 32 := Int.emod_lt_of_pos x (by decide)
  have hcast : ((2 ^ 32 : ℕ) : ℤ) = 2 ^ 32 := by norm_num
  rw [getSize, setSize, Mem.get32_set32_self, Nat.mod_eq_of_lt (by omega), Int.toNat_of_nonneg hpos, bufsize,
    bufsize, ← hcast, Int.emod_bmod]

theorem getSize_set32 (h : a + 4 ≤ b ∨ b + 4 ≤ a) : getSize (m.set32 b v) a = getSize m a := by
  rw [getSize, getSize, Mem.get32_set32_of_disjoint h]

theorem getSize_setSize (h : a + 4 ≤ b ∨ b + 4 ≤ a) : getSize (setSize m b x) a = getSize m a := getSize_set32 h

theorem get32_setSize (h : a + 4 ≤ b ∨ b + 4 ≤ a) : (setSize m b x).get32 a = m.get32 a :=
  Mem.get32_set32_of_disjoint h

/-! The four words of a buffer. Headers and links of different buffers have to lie apart. -/

theorem prevfree_setPrevfree (h : a = b ∨ a + 8 ≤ b ∨ b + 8 ≤ a) :
    prevfree (setPrevfree m b x) a = if a = b then bufsize x else prevfree m a := by
  split_ifs with hab
  · rw [hab]
    exact getSize_setSize_self
  · exact getSize_setSize (by omega)

theorem prevfree_setBsize (h : a = b ∨ a + 8 ≤ b ∨ b + 8 ≤ a) : prevfree (setBsize m b x) a = prevfree m a :=
  getSize_setSize (by omega)

theorem bsize_setBsize (h : a = b ∨ a + 8 ≤ b ∨ b + 8 ≤ a) :
    bsize (setBsize m b x) a = if a = b then bufsize x else bsize m a := by
  split_ifs with hab
  · rw [hab]
    exact getSize_setSize_self
  · exact getSize_setSize (by omega)

theorem bsize_setPrevfree (h : a = b ∨ a + 8 ≤ b ∨ b + 8 ≤ a) : bsize (setPrevfree m b x) a = bsize m a :=
  getSize_setSize (by omega)

theorem prevfree_setFlink (h : a ≤ b ∨ b + 16 ≤ a) : prevfree (setFlink m b v) a = prevfree m a :=
  getSize_set32 (by omega)

theorem prevfree_setBlink (h : a ≤ b ∨ b + 16 ≤ a) : prevfree (setBlink m b v) a = prevfree m a :=
  getSize_set32 (by omega)

theorem bsize_setFlink (h : a ≤ b ∨ b + 16 ≤ a) : bsize (setFlink m b v) a = bsize m a :=
  getSize_set32 (by omega)

theorem bsize_setBlink (h : a ≤ b ∨ b + 16 ≤ a) : bsize (setBlink m b v) a = bsize m a :=
  getSize_set32 (by omega)

theorem flink_setPrevfree (h : b ≤ a ∨ a + 16 ≤ b) : flink (setPrevfree m b x) a = flink m a :=
  get32_setSize (by omega)

theorem flink_setBsize (h : b ≤ a ∨ a + 16 ≤ b) : flink (setBsize m b x) a = flink m a :=
  get32_setSize (by omega)

theorem blink_setPrevfree (h : b ≤ a ∨ a + 16 ≤ b) : blink (setPrevfree m b x) a = blink m a :=
  get32_setSize (by omega)

theorem blink_setBsize (h : b ≤ a ∨ a + 16 ≤ b) : blink (setBsize m b x) a = blink m a :=
  get32_setSize (by omega)

theorem flink_setFlink (h : a = b ∨ a + 16 ≤ b ∨ b + 16 ≤ a) (hv : v < 2 ^ 32) :
    flink (setFlink m b v) a = if a = b then v else flink m a := by
  split_ifs with hab
  · rw [hab, flink, setFlink, Mem.get32_set32_self, Nat.mod_eq_of_lt hv]
  · exact Mem.get32_set32_of_disjoint (by omega)

theorem blink_setBlink (h : a = b ∨ a + 16 ≤ b ∨ b + 16 ≤ a) (hv : v < 2 ^ 32) :
    blink (setBlink m b v) a = if a = b then v else blink m a := by
  split_ifs with hab
  · rw [hab, blink, setBlink, Mem.get32_set32_self, Nat.mod_eq_of_lt hv]
  · exact Mem.get32_set32_of_disjoint (by omega)

theorem flink_setBlink (h : a = b ∨ a + 16 ≤ b ∨ b + 16 ≤ a) : flink (setBlink m b v) a = flink m a :=
  Mem.get32_set32_of_disjoint (by omega)

theorem blink_setFlink (h : a = b ∨ a + 16 ≤ b ∨ b + 16 ≤ a) : blink (setFlink m b v) a = blink m a :=
  Mem.get32_set32_of_disjoint (by omega)

theorem flink_lt : flink m a < 2 ^ 32 := Mem.get32_lt m _

theorem blink_lt : blink m a < 2 ^ 32 := Mem.get32_lt m _

/-- Only the bytes of the word change. -/
theorem set32_frame {i : ℕ} (h : i < a ∨ a + 4 ≤ i) : m.set32 a v i = m i := Mem.writeLE_of_notMem h

/-! ## Addresses -/

theorem addr_of_lt (h0 : 0 ≤ p + k) (h : p + k < 2 ^ 32) : (addr p k : ℤ) = p + k := by
  rw [addr, Int.emod_eq_of_lt h0 h, Int.toNat_of_nonneg h0]

/-- Going up. -/
theorem addr_add (h : p + n < 2 ^ 32) : addr p (n : ℤ) = p + n := by
  have hcast := addr_of_lt (p := p) (k := n) (by omega) (by omega)
  omega

/-- Going down. -/
theorem addr_sub (hle : n ≤ p) (h : p < 2 ^ 32) : addr p (-(n : ℤ)) = p - n := by
  have hcast := addr_of_lt (p := p) (k := -n) (by omega) (by omega)
  omega

end Shaunos.Mm.Bget
