import Shaunos.Common.StringInsns

/-!
# Strings

Reference: `lib/string.c` (`strncmp`, `strlen`, `strncpy`, `strrchr`).

`strncmp` looks at one byte more than it is asked to. `strncpy` puts a NUL behind the `n` bytes if there is none among
them. `strrchr` does not look at the first byte, and for an empty string it does not stop there.

* `strncmp_rightIff`, `strncpy_rightIff`, `strrchr_rightIff` — one for each function;
* `stringFns_rightIff` — all of them.
-/

namespace Shaunos.Insns

/-! ## The code -/

namespace Mem

variable (mem : Mem)

/-- `while (n-- && *p1 && *p2 && (*p1 == *p2))`, and the difference behind it. -/
def strncmpLoop (p1 p2 n : BitVec 32) : ℤ :=
  if _h : n ≠ 0 ∧ mem p1 ≠ 0 ∧ mem p2 ≠ 0 ∧ mem p1 = mem p2 then strncmpLoop (p1 + 1) (p2 + 1) (n - 1)
  else (mem p1).toInt - (mem p2).toInt
termination_by n.toNat
decreasing_by
  have hn : n.toNat ≠ 0 := fun hz => _h.1 (BitVec.eq_of_toNat_eq hz)
  have hlt := n.isLt
  rw [BitVec.toNat_sub]
  change (2 ^ 32 - 1 + n.toNat) % 2 ^ 32 < n.toNat
  omega

def strncmp (s1 s2 n : BitVec 32) : ℤ := if s1 = 0 ∨ s2 = 0 then -1 else mem.strncmpLoop s1 s2 n

/-- `1: scasb; jnz 1b`. It does not end if no byte is 0. -/
def scasb : (fuel : ℕ) → BitVec 32 → Option (BitVec 32)
  | 0, _ => none
  | fuel + 1, edi => if mem edi = 0 then some (edi + 1) else scasb fuel (edi + 1)

def strlen (s : BitVec 32) : Option (BitVec 32) :=
  if s = 0 then some (-1) else (mem.scasb (2 ^ 32) s).map fun edi => edi - s - 1

/-- `stosb`, with a list of the addresses that are written. No code reads that list. -/
def stosb (edi : BitVec 32) (al : Byte) (log : List (BitVec 32)) : Mem × List (BitVec 32) :=
  (Function.update mem edi al, log ++ [edi])

/-- `rep; stosb` -/
def repStosb : (ecx : ℕ) → Mem → (edi : BitVec 32) → (al : Byte) → List (BitVec 32) → Mem × List (BitVec 32)
  | 0, mem, _, _, log => (mem, log)
  | ecx + 1, mem, edi, al, log =>
      let (mem, log) := mem.stosb edi al log
      repStosb ecx mem (edi + 1) al log

end Mem

/-- The loop of `strncpy`. -/
def strncpyLoop (mem : Mem) (edi esi ecx : BitVec 32) (log : List (BitVec 32)) : Mem × List (BitVec 32) :=
  if _h : (ecx - 1).msb then mem.stosb edi 0 log
  else
    let al := mem esi
    if al ≠ 0 then strncpyLoop (mem.stosb edi al log).1 (edi + 1) (esi + 1) (ecx - 1) (mem.stosb edi al log).2
    else Mem.repStosb (ecx - 1).toNat (mem.stosb edi al log).1 (edi + 1) al (mem.stosb edi al log).2
termination_by ecx.toNat
decreasing_by
  have hlt := ecx.isLt
  rw [BitVec.msb_eq_decide, decide_eq_true_eq, BitVec.toNat_sub] at _h
  rw [BitVec.toNat_sub]
  change ¬ 2 ^ 31 ≤ (2 ^ 32 - 1 + ecx.toNat) % 2 ^ 32 at _h
  change (2 ^ 32 - 1 + ecx.toNat) % 2 ^ 32 < ecx.toNat
  omega

/-- `strncpy`: the memory, and which addresses were written. -/
def strncpy (mem : Mem) (dest src n : BitVec 32) : Mem × List (BitVec 32) :=
  if n = 0 then (mem, []) else strncpyLoop mem dest src n []

namespace Mem

variable (mem : Mem)

/-- The loop of `strrchr`. With `ecx` 0, it goes on for `2 ^ 32` bytes. -/
def strrchrLoop (esi ecx : BitVec 32) (c : Byte) : BitVec 32 :=
  if mem esi = c then esi - 1 + 1
  else if _h : ecx - 1 = 0 then 0
  else strrchrLoop (esi - 1) (ecx - 1) c
termination_by (ecx - 1).toNat
decreasing_by
  have hn : (ecx - 1).toNat ≠ 0 := fun hz => _h (BitVec.eq_of_toNat_eq hz)
  have hlt := (ecx - 1).isLt
  rw [BitVec.toNat_sub]
  change (2 ^ 32 - 1 + (ecx - 1).toNat) % 2 ^ 32 < (ecx - 1).toNat
  omega

def strrchr (s : BitVec 32) (c : Byte) : Option (BitVec 32) :=
  (mem.strlen s).map fun len => mem.strrchrLoop (s + len) len c

end Mem

/-! ## What should happen -/

/-- A string at `s`, with its NUL. -/
structure StrAt (mem : Mem) (s : BitVec 32) (l : List Byte) : Prop where
  null : s ≠ 0
  fits : s.toNat + l.length < 2 ^ 32
  bytes : ∀ i ≤ l.length, mem (s + BitVec.ofNat 32 i) = l.getD i 0
  inner : ∀ b ∈ l, b ≠ 0

/-- A string with its NUL. -/
def withNul (l : List Byte) : List Byte := l ++ [0]

/-- It is 0 for strings that agree in the first `n` bytes, as far as they go. -/
def StrncmpRight (mem : Mem) (s1 s2 n : BitVec 32) (a b : List Byte) : Prop :=
  mem.strncmp s1 s2 n = 0 ↔ (withNul a).take n.toNat = (withNul b).take n.toNat

/-- It stays inside of `n` bytes. -/
def StrncpyRight (mem : Mem) (dest src n : BitVec 32) : Prop := ∀ k ∈ (strncpy mem dest src n).2, offset dest k < n.toNat

/-- It finds the last occurrence, if there is one, wherever the string is. -/
def StrrchrRight (l : List Byte) (c : Byte) : Prop :=
  ∀ mem s, StrAt mem s l → ∃ p, mem.strrchr s c = some p ∧ (p = 0 ↔ c ∉ withNul l) ∧
    ∀ i ≤ l.length, l.getD i 0 = c → (∀ j ≤ l.length, i < j → l.getD j 0 ≠ c) → p = s + BitVec.ofNat 32 i

section

variable {mem : Mem} {s p p1 p2 d n ecx : BitVec 32} {l a b : List Byte} {c x : Byte} {log : List (BitVec 32)}

theorem ofNat_succ (k : ℕ) (s : BitVec 32) : s + 1 + BitVec.ofNat 32 k = s + BitVec.ofNat 32 (k + 1) := by
  rw [BitVec.ofNat_add, BitVec.add_assoc, BitVec.add_comm (1 : BitVec 32)]
  rfl

/-- What is at `s`. -/
def Bytes (mem : Mem) (s : BitVec 32) (l : List Byte) : Prop := ∀ i ≤ l.length, mem (s + BitVec.ofNat 32 i) = l.getD i 0

theorem Bytes.head (h : Bytes mem s l) : mem s = l.getD 0 0 := by
  have hzero := h 0 (Nat.zero_le _)
  rwa [show s + BitVec.ofNat 32 0 = s from BitVec.add_zero s] at hzero

theorem Bytes.tail (h : Bytes mem s (x :: l)) : Bytes mem (s + 1) l := by
  intro i hi
  rw [ofNat_succ]
  exact h (i + 1) (Nat.succ_le_succ hi)

/-! ## `strncmp` -/

theorem toNat_pred (hn : n ≠ 0) : (n - 1).toNat + 1 = n.toNat := by
  have hnat : n.toNat ≠ 0 := fun hz => hn (BitVec.eq_of_toNat_eq hz)
  have hlt := n.isLt
  rw [BitVec.toNat_sub]
  change (2 ^ 32 - 1 + n.toNat) % 2 ^ 32 + 1 = n.toNat
  omega

theorem sub_toInt_eq_zero_iff (x y : Byte) : x.toInt - y.toInt = 0 ↔ x = y := by rw [sub_eq_zero, BitVec.toInt_inj]

/-- The first byte, and then the others. -/
theorem withNul_take_succ (n : ℕ) (x y : Byte) (a b : List Byte) :
    (withNul (x :: a)).take (n + 1) = (withNul (y :: b)).take (n + 1) ↔ x = y ∧ (withNul a).take n = (withNul b).take n := by
  rw [withNul, withNul, List.cons_append, List.cons_append, List.take_succ_cons, List.take_succ_cons, List.cons.injEq]
  rfl

/-- The loop compares one byte more. -/
theorem strncmpLoop_eq_zero_iff (ha : ∀ x ∈ a, x ≠ 0) (hb : ∀ x ∈ b, x ≠ 0) (h1 : Bytes mem p1 a) (h2 : Bytes mem p2 b) :
    mem.strncmpLoop p1 p2 n = 0 ↔ (withNul a).take (n.toNat + 1) = (withNul b).take (n.toNat + 1) := by
  induction a generalizing b p1 p2 n with
  | nil =>
      have hstop : ¬ (n ≠ 0 ∧ mem p1 ≠ 0 ∧ mem p2 ≠ 0 ∧ mem p1 = mem p2) := fun h => h.2.1 h1.head
      rw [Mem.strncmpLoop, dif_neg hstop, sub_toInt_eq_zero_iff, h1.head, h2.head]
      cases b with
      | nil => exact iff_of_true rfl rfl
      | cons y b =>
          refine iff_of_false (fun h => hb y List.mem_cons_self h.symm) fun h => ?_
          exact hb y List.mem_cons_self (List.cons.inj h).1.symm
  | cons x a ih =>
      cases b with
      | nil =>
          have hstop : ¬ (n ≠ 0 ∧ mem p1 ≠ 0 ∧ mem p2 ≠ 0 ∧ mem p1 = mem p2) := fun h => h.2.2.1 h2.head
          rw [Mem.strncmpLoop, dif_neg hstop, sub_toInt_eq_zero_iff, h1.head, h2.head]
          exact iff_of_false (ha x List.mem_cons_self) fun h => ha x List.mem_cons_self (List.cons.inj h).1
      | cons y b =>
          have hx := ha x List.mem_cons_self
          have hy := hb y List.mem_cons_self
          have hh1 : mem p1 = x := h1.head
          have hh2 : mem p2 = y := h2.head
          rw [withNul_take_succ, Mem.strncmpLoop]
          by_cases hgo : n ≠ 0 ∧ mem p1 ≠ 0 ∧ mem p2 ≠ 0 ∧ mem p1 = mem p2
          · have hxy : x = y := by rw [← hh1, hgo.2.2.2, hh2]
            rw [dif_pos hgo, ← toNat_pred hgo.1, and_iff_right hxy]
            exact ih (fun z hz => ha z (List.mem_cons_of_mem _ hz)) (fun z hz => hb z (List.mem_cons_of_mem _ hz))
              h1.tail h2.tail
          · rw [dif_neg hgo, sub_toInt_eq_zero_iff, hh1, hh2]
            refine (and_iff_left_of_imp fun hxy => ?_).symm
            have hn : n = 0 := by
              by_contra hn
              exact hgo ⟨hn, by rwa [hh1], by rwa [hh2], by rw [hh1, hh2, hxy]⟩
            rw [hn]
            rfl

theorem strncmp_eq_zero_iff (h1 : StrAt mem p1 a) (h2 : StrAt mem p2 b) (n : BitVec 32) :
    mem.strncmp p1 p2 n = 0 ↔ (withNul a).take (n.toNat + 1) = (withNul b).take (n.toNat + 1) := by
  rw [Mem.strncmp, if_neg (not_or.mpr ⟨h1.null, h2.null⟩)]
  exact strncmpLoop_eq_zero_iff h1.inner h2.inner h1.bytes h2.bytes

/-! ## `strncpy` -/

/-- `n` addresses from `d` on. -/
def addrs (d : BitVec 32) (n : ℕ) : List (BitVec 32) := (List.range n).map fun i => d + BitVec.ofNat 32 i

theorem addrs_succ (d : BitVec 32) (n : ℕ) : addrs d (n + 1) = d :: addrs (d + 1) n := by
  rw [addrs, List.range_succ_eq_map, List.map_cons, List.map_map, addrs]
  refine congrArg₂ List.cons (BitVec.add_zero d) (List.map_congr_left fun i _ => ?_)
  exact (ofNat_succ i d).symm

theorem repStosb_log (k : ℕ) (mem : Mem) (d : BitVec 32) (x : Byte) (log : List (BitVec 32)) :
    (Mem.repStosb k mem d x log).2 = log ++ addrs d k := by
  induction k generalizing mem d log with
  | zero => exact (List.append_nil log).symm
  | succ k ih =>
      rw [Mem.repStosb, ih, Mem.stosb, addrs_succ, List.append_assoc]
      rfl

/-- A string that the next byte does not touch. -/
theorem Bytes.update (h : Bytes mem s l) (hne : ∀ i ≤ l.length, s + BitVec.ofNat 32 i ≠ d) (x : Byte) :
    Bytes (Function.update mem d x) s l := by
  intro i hi
  rw [Function.update_of_ne (hne i hi)]
  exact h i hi

/-- Which addresses the loop writes. -/
theorem strncpyLoop_writes (hl : ∀ x ∈ l, x ≠ 0) (h : Bytes mem s l) (hecx : ecx.toNat ≤ 2 ^ 31)
    (hdis : ∀ i ≤ l.length, ∀ j < ecx.toNat, s + BitVec.ofNat 32 i ≠ d + BitVec.ofNat 32 j) :
    (strncpyLoop mem d s ecx log).2 = log ++ addrs d (if l.length < ecx.toNat then ecx.toNat else ecx.toNat + 1) := by
  induction l generalizing mem s d ecx log with
  | nil =>
      by_cases hzero : ecx = 0
      · rw [hzero, strncpyLoop, dif_pos (by decide)]
        exact congrArg (log ++ ·) (addrs_succ d 0).symm
      have hpred := toNat_pred hzero
      have hnot : ¬ (ecx - 1).msb = true := by
        rw [BitVec.msb_eq_decide, decide_eq_true_eq]
        omega
      have hal : ¬ mem s ≠ 0 := not_not.mpr h.head
      have hlt : ([] : List Byte).length < ecx.toNat := by
        rw [List.length_nil]
        omega
      rw [strncpyLoop, dif_neg hnot]
      dsimp only
      rw [if_neg hal, repStosb_log, Mem.stosb, if_pos hlt, ← hpred, addrs_succ, List.append_assoc]
      rfl
  | cons x l ih =>
      have hx := hl x List.mem_cons_self
      by_cases hzero : ecx = 0
      · rw [hzero, strncpyLoop, dif_pos (by decide)]
        exact congrArg (log ++ ·) (addrs_succ d 0).symm
      have hpred := toNat_pred hzero
      have hnot : ¬ (ecx - 1).msb = true := by
        rw [BitVec.msb_eq_decide, decide_eq_true_eq]
        omega
      have hal : mem s ≠ 0 := by
        have hhead : mem s = x := h.head
        rwa [hhead]
      have hkeep : Bytes (Function.update mem d (mem s)) (s + 1) l := by
        refine h.tail.update (fun i hi => ?_) _
        have hne := hdis (i + 1) (Nat.succ_le_succ hi) 0 (by omega)
        rw [← ofNat_succ] at hne
        exact fun heq => hne (heq.trans (BitVec.add_zero d).symm)
      have hdis' : ∀ i ≤ l.length, ∀ j < (ecx - 1).toNat, s + 1 + BitVec.ofNat 32 i ≠ d + 1 + BitVec.ofNat 32 j := by
        intro i hi j hj
        rw [ofNat_succ, ofNat_succ]
        exact hdis (i + 1) (Nat.succ_le_succ hi) (j + 1) (by omega)
      have hrest : (strncpyLoop (Function.update mem d (mem s)) (d + 1) (s + 1) (ecx - 1) (log ++ [d])).2 = _ :=
        ih (fun z hz => hl z (List.mem_cons_of_mem _ hz)) hkeep (by omega) hdis'
      rw [strncpyLoop, dif_neg hnot]
      dsimp only
      rw [if_pos hal, Mem.stosb]
      dsimp only
      rw [hrest, ← hpred, List.length_cons, List.append_assoc]
      simp only [Nat.add_lt_add_iff_right]
      split_ifs
      · exact congrArg (log ++ ·) (addrs_succ d _).symm
      · exact congrArg (log ++ ·) (addrs_succ d _).symm

/-- Strings and buffers that do not overlap. -/
def Apart (src dest : BitVec 32) (l : List Byte) (n : ℕ) : Prop :=
  ∀ i ≤ l.length, ∀ j < n, src + BitVec.ofNat 32 i ≠ dest + BitVec.ofNat 32 j

instance (src dest : BitVec 32) (l : List Byte) (n : ℕ) : Decidable (Apart src dest l n) :=
  inferInstanceAs (Decidable (∀ i ≤ l.length, ∀ j < n, src + BitVec.ofNat 32 i ≠ dest + BitVec.ofNat 32 j))

theorem strncpy_writes (h : StrAt mem s l) (hdis : Apart s d l n.toNat) (hn : n ≠ 0) (hle : n.toNat ≤ 2 ^ 31) :
    (strncpy mem d s n).2 = addrs d (if l.length < n.toNat then n.toNat else n.toNat + 1) := by
  rw [strncpy, if_neg hn]
  exact strncpyLoop_writes h.inner h.bytes hle hdis

theorem strncpy_rightIff (h : StrAt mem s l) (hdis : Apart s d l n.toNat) :
    StrncpyRight mem d s n ↔ n = 0 ∨ 2 ^ 31 < n.toNat ∨ l.length < n.toNat := by
  by_cases hn : n = 0
  · refine iff_of_true ?_ (.inl hn)
    rw [StrncpyRight, strncpy, if_pos hn]
    exact List.forall_mem_nil _
  have hpos : 0 < n.toNat := Nat.pos_of_ne_zero fun hz => hn (BitVec.eq_of_toNat_eq hz)
  have hlt := n.isLt
  by_cases hbig : 2 ^ 31 < n.toNat
  · refine iff_of_true ?_ (.inr (.inl hbig))
    have hpred := toNat_pred hn
    have hmsb : (n - 1).msb = true := by
      rw [BitVec.msb_eq_decide, decide_eq_true_eq]
      omega
    rw [StrncpyRight, strncpy, if_neg hn, strncpyLoop, dif_pos hmsb]
    refine List.forall_mem_singleton.mpr ?_
    rwa [offset_self]
  rw [or_iff_right hn, or_iff_right hbig, StrncpyRight, strncpy_writes h hdis hn (by omega)]
  constructor
  · intro hall
    by_contra hlong
    rw [if_neg hlong] at hall
    have hlast := hall (d + BitVec.ofNat 32 n.toNat) (List.mem_map.mpr ⟨n.toNat, List.mem_range.mpr n.toNat.lt_succ_self, rfl⟩)
    rw [offset_add hlt] at hlast
    exact lt_irrefl _ hlast
  · intro hshort k hk
    rw [if_pos hshort] at hk
    obtain ⟨i, hi, rfl⟩ := List.mem_map.mp hk
    have hi' := List.mem_range.mp hi
    rwa [offset_add (hi'.trans hlt)]

/-! ## `strrchr` -/

theorem scasb_eq {fuel : ℕ} (hl : ∀ x ∈ l, x ≠ 0) (h : Bytes mem s l) (hfuel : l.length < fuel) :
    mem.scasb fuel s = some (s + BitVec.ofNat 32 (l.length + 1)) := by
  induction l generalizing s fuel with
  | nil =>
      obtain ⟨fuel, rfl⟩ := Nat.exists_eq_succ_of_ne_zero hfuel.ne'
      rw [Mem.scasb, if_pos (show mem s = 0 from h.head)]
      rfl
  | cons x l ih =>
      obtain ⟨fuel, rfl⟩ := Nat.exists_eq_succ_of_ne_zero (Nat.ne_zero_of_lt hfuel)
      have hx : mem s = x := h.head
      have hne : ¬ mem s = 0 := by
        rw [hx]
        exact hl x List.mem_cons_self
      rw [Mem.scasb, if_neg hne, ih (fun z hz => hl z (List.mem_cons_of_mem _ hz)) h.tail (Nat.lt_of_succ_lt_succ hfuel),
        ofNat_succ]
      rfl

theorem strlen_eq (h : StrAt mem s l) : mem.strlen s = some (BitVec.ofNat 32 l.length) := by
  have hfits := h.fits
  rw [Mem.strlen, if_neg h.null, scasb_eq h.inner h.bytes (by omega), Option.map_some, BitVec.ofNat_add,
    add_sub_cancel_left]
  exact congrArg some (add_sub_cancel_right _ _)

theorem pred_ofNat (k : ℕ) (s : BitVec 32) : s + BitVec.ofNat 32 (k + 1) - 1 = s + BitVec.ofNat 32 k := by
  rw [BitVec.ofNat_add, ← BitVec.add_assoc]
  exact add_sub_cancel_right _ _

theorem ofNat_ne_zero {k : ℕ} (hpos : 0 < k) (hk : k < 2 ^ 32) : BitVec.ofNat 32 k ≠ 0 := by
  intro h
  have hnat := congrArg BitVec.toNat h
  rw [BitVec.toNat_ofNat, Nat.mod_eq_of_lt hk] at hnat
  exact hpos.ne' hnat

/-- The loop goes on to the byte below. -/
theorem strrchrLoop_next {k : ℕ} (hpos : 0 < k) (hk : k < 2 ^ 32) (hne : mem (s + BitVec.ofNat 32 (k + 1)) ≠ c) :
    mem.strrchrLoop (s + BitVec.ofNat 32 (k + 1)) (BitVec.ofNat 32 (k + 1)) c =
      mem.strrchrLoop (s + BitVec.ofNat 32 k) (BitVec.ofNat 32 k) c := by
  have hpred : BitVec.ofNat 32 (k + 1) - 1 = BitVec.ofNat 32 k := by
    rw [BitVec.ofNat_add]
    exact add_sub_cancel_right _ _
  have hnext : ¬ BitVec.ofNat 32 (k + 1) - 1 = 0 := by
    rw [hpred]
    exact ofNat_ne_zero hpos hk
  rw [Mem.strrchrLoop, if_neg hne, dif_neg hnext, pred_ofNat, hpred]

/-- From the byte `k` down, the loop finds a byte that is not the first one. -/
theorem strrchrLoop_found {i k : ℕ} (hk : k < 2 ^ 32) (hi : 0 < i) (hle : i ≤ k) (hc : mem (s + BitVec.ofNat 32 i) = c)
    (hlast : ∀ j, i < j → j ≤ k → mem (s + BitVec.ofNat 32 j) ≠ c) :
    mem.strrchrLoop (s + BitVec.ofNat 32 k) (BitVec.ofNat 32 k) c = s + BitVec.ofNat 32 i := by
  induction k with
  | zero => omega
  | succ k ih =>
      rcases Nat.eq_or_lt_of_le hle with rfl | hlt
      · rw [Mem.strrchrLoop, if_pos hc]
        exact sub_add_cancel _ _
      · rw [strrchrLoop_next (by omega) (by omega) (hlast (k + 1) hlt le_rfl)]
        exact ih (by omega) (by omega) fun j hj hle' => hlast j hj (by omega)

/-- Or none, and then it stops before the first byte. -/
theorem strrchrLoop_null {k : ℕ} (hpos : 0 < k) (hk : k < 2 ^ 32)
    (hnone : ∀ j, 0 < j → j ≤ k → mem (s + BitVec.ofNat 32 j) ≠ c) :
    mem.strrchrLoop (s + BitVec.ofNat 32 k) (BitVec.ofNat 32 k) c = 0 := by
  induction k with
  | zero => omega
  | succ k ih =>
      have hne := hnone (k + 1) hpos le_rfl
      rcases Nat.eq_zero_or_pos k with rfl | hpos'
      · rw [Mem.strrchrLoop, if_neg hne, dif_pos (by rfl)]
      · rw [strrchrLoop_next hpos' (by omega) hne]
        exact ih hpos' (by omega) fun j hj hle => hnone j hj (by omega)

theorem strrchr_eq (h : StrAt mem s l) (c : Byte) :
    mem.strrchr s c = some (mem.strrchrLoop (s + BitVec.ofNat 32 l.length) (BitVec.ofNat 32 l.length) c) := by
  rw [Mem.strrchr, strlen_eq h]
  rfl

theorem mem_withNul_iff : c ∈ withNul l ↔ ∃ i ≤ l.length, l.getD i 0 = c := by
  rw [withNul, List.mem_append, List.mem_singleton]
  constructor
  · rintro (hmem | rfl)
    · obtain ⟨i, hi, rfl⟩ := List.mem_iff_getElem.mp hmem
      exact ⟨i, hi.le, List.getD_eq_getElem _ _ hi⟩
    · exact ⟨l.length, le_rfl, List.getD_eq_default _ _ le_rfl⟩
  · rintro ⟨i, hi, hc⟩
    rcases Nat.eq_or_lt_of_le hi with rfl | hlt
    · rw [List.getD_eq_default _ _ le_rfl] at hc
      exact .inr hc.symm
    · rw [List.getD_eq_getElem _ _ hlt] at hc
      exact .inl (hc ▸ List.getElem_mem hlt)

/-- `c` is NUL, or the string is not empty, and if it starts with `c`, it has another one. -/
def StrrchrOk (l : List Byte) (c : Byte) : Prop := c = 0 ∨ (l ≠ [] ∧ (l.getD 0 0 = c → c ∈ l.tail))

instance (l : List Byte) (c : Byte) : Decidable (StrrchrOk l c) := inferInstanceAs (Decidable (_ ∨ _))

/-- The last occurrence behind the first byte. -/
theorem strrchr_right_of_last {i : ℕ} (h : StrAt mem s l) (hi : 0 < i) (hle : i ≤ l.length) (hc : l.getD i 0 = c)
    (hlast : ∀ j ≤ l.length, i < j → l.getD j 0 ≠ c) : mem.strrchr s c = some (s + BitVec.ofNat 32 i) := by
  have hfits := h.fits
  rw [strrchr_eq h, strrchrLoop_found (by omega) hi hle]
  · rw [h.bytes i hle, hc]
  · intro j hj hjle
    rw [h.bytes j hjle]
    exact hlast j hjle hj

/-- There is a last occurrence. -/
theorem exists_last {P : ℕ → Prop} {k i : ℕ} (hi : i ≤ k) (h : P i) :
    ∃ j, i ≤ j ∧ j ≤ k ∧ P j ∧ ∀ j' ≤ k, j < j' → ¬ P j' := by
  classical
  exact ⟨Nat.findGreatest P k, Nat.le_findGreatest hi h, Nat.findGreatest_le k, Nat.findGreatest_spec hi h,
    fun j' hle hlt => Nat.findGreatest_is_greatest hlt hle⟩

theorem add_ofNat_ne_zero {i : ℕ} (h : StrAt mem s l) (hi : i ≤ l.length) : s + BitVec.ofNat 32 i ≠ 0 := by
  intro hz
  have hfits := h.fits
  have hnull : s.toNat ≠ 0 := fun hzero => h.null (BitVec.eq_of_toNat_eq hzero)
  have hnat := congrArg BitVec.toNat hz
  rw [BitVec.toNat_add, BitVec.toNat_ofNat] at hnat
  change (s.toNat + i % 2 ^ 32) % 2 ^ 32 = 0 at hnat
  omega

/-- `strrchr` does not see what is not behind the first byte. -/
theorem strrchr_eq_null (h : StrAt mem s l) (hl : l ≠ []) (hnone : ∀ i, 0 < i → i ≤ l.length → l.getD i 0 ≠ c) :
    mem.strrchr s c = some 0 := by
  have hfits := h.fits
  rw [strrchr_eq h, strrchrLoop_null (List.length_pos_iff.mpr hl) (by omega)]
  intro i hi hle
  rw [h.bytes i hle]
  exact hnone i hi hle

theorem StrrchrOk.right (hok : StrrchrOk l c) : StrrchrRight l c := by
  intro mem s h
  by_cases hmem : ∃ i ≤ l.length, 0 < i ∧ l.getD i 0 = c
  · obtain ⟨i, hle, hi⟩ := hmem
    obtain ⟨j, hij, hjle, ⟨hj, hc⟩, hlast⟩ := exists_last (P := fun i => 0 < i ∧ l.getD i 0 = c) hle hi
    have hlast' : ∀ j' ≤ l.length, j < j' → l.getD j' 0 ≠ c := fun j' hle' hlt heq => hlast j' hle' hlt ⟨by omega, heq⟩
    refine ⟨_, strrchr_right_of_last h hj hjle hc hlast', ?_, ?_⟩
    · exact iff_of_false (add_ofNat_ne_zero h hjle) (not_not.mpr (mem_withNul_iff.mpr ⟨j, hjle, hc⟩))
    · intro i' hle' hc' hlast''
      rcases lt_trichotomy i' j with hlt | rfl | hgt
      · exact absurd hc (hlast'' j hjle hlt)
      · rfl
      · exact absurd hc' (hlast' i' hle' hgt)
  · have hnone : ∀ i, 0 < i → i ≤ l.length → l.getD i 0 ≠ c := fun i hi hle hc => hmem ⟨i, hle, hi, hc⟩
    by_cases hl : l = []
    · -- only `c = 0` is left, and that is what is at `s`
      rcases hok with rfl | hok
      · subst hl
        have hhead : mem s = 0 := (show Bytes mem s [] from h.bytes).head
        have hfound : mem.strrchr s 0 = some s := by
          rw [strrchr_eq h, List.length_nil, BitVec.add_zero, Mem.strrchrLoop, if_pos hhead]
          exact congrArg some (sub_add_cancel s 1)
        refine ⟨s, hfound, iff_of_false h.null (not_not.mpr (List.mem_singleton.mpr rfl)), ?_⟩
        intro i hi _ _
        rw [Nat.le_zero.mp hi]
        exact (BitVec.add_zero s).symm
      · exact absurd hl hok.1
    · have hzero : c ≠ 0 := fun hc =>
        hnone l.length (List.length_pos_iff.mpr hl) le_rfl ((List.getD_eq_default _ _ le_rfl).trans hc.symm)
      have hok' := (hok.resolve_left hzero).2
      have hhead : l.getD 0 0 ≠ c := by
        intro hc
        obtain ⟨i, hi, hget⟩ := List.mem_iff_getElem.mp (hok' hc)
        have hlt : i + 1 < l.length := by
          rw [List.length_tail] at hi
          omega
        refine hnone (i + 1) i.succ_pos hlt.le ?_
        rw [List.getD_eq_getElem _ _ hlt, ← hget, List.getElem_tail]
      have hmiss : ∀ i ≤ l.length, l.getD i 0 ≠ c := by
        intro i hle
        rcases Nat.eq_zero_or_pos i with rfl | hi
        · exact hhead
        · exact hnone i hi hle
      refine ⟨0, strrchr_eq_null h hl hnone, iff_of_true rfl ?_, fun i hle hc => absurd hc (hmiss i hle)⟩
      intro hin
      obtain ⟨i, hle, hc⟩ := mem_withNul_iff.mp hin
      exact hmiss i hle hc

/-- An empty string behind a `c`. -/
def behindC (c : Byte) : Mem := fun k => if k = 2 then 0 else c

theorem behindC_strAt (c : Byte) : StrAt (behindC c) 2 [] where
  null := by decide
  fits := by decide
  bytes := by
    intro i hi
    rw [Nat.le_zero.mp hi]
    rfl
  inner := List.forall_mem_nil _

/-- `strrchr` returns what is below an empty string. -/
theorem behindC_strrchr (hc : c ≠ 0) : (behindC c).strrchr 2 c = some 1 := by
  rw [strrchr_eq (behindC_strAt c), List.length_nil, BitVec.add_zero, Mem.strrchrLoop, if_neg (Ne.symm hc : behindC c 2 ≠ c),
    dif_neg (by decide), Mem.strrchrLoop, if_pos (show behindC c (2 - 1) = c from rfl)]
  rfl

theorem strrchr_rightIff (h : StrAt mem s l) (c : Byte) : StrrchrRight l c ↔ StrrchrOk l c := by
  refine ⟨fun hright => ?_, StrrchrOk.right⟩
  by_contra hnot
  obtain ⟨hc, hrest⟩ := not_or.mp hnot
  by_cases hl : l = []
  · subst hl
    obtain ⟨p, hp, hnull, -⟩ := hright _ _ (behindC_strAt c)
    rw [behindC_strrchr hc] at hp
    have hpne : p ≠ 0 := by
      rw [← Option.some.inj hp]
      decide
    exact hpne (hnull.mpr fun hin => hc (List.mem_singleton.mp hin))
  · have hhead : l.getD 0 0 = c ∧ c ∉ l.tail := by
      by_contra hno
      refine hrest ⟨hl, fun hh => ?_⟩
      by_contra hin
      exact hno ⟨hh, hin⟩
    have hnone : ∀ i, 0 < i → i ≤ l.length → l.getD i 0 ≠ c := by
      intro i hi hle heq
      rcases Nat.eq_or_lt_of_le hle with rfl | hlt
      · exact hc ((List.getD_eq_default _ _ le_rfl).symm.trans heq).symm
      · refine hhead.2 (List.mem_iff_getElem.mpr ⟨i - 1, ?_, ?_⟩)
        · rw [List.length_tail]
          omega
        · rw [List.getD_eq_getElem _ _ hlt] at heq
          rw [List.getElem_tail, ← heq]
          congr 1
          omega
    obtain ⟨p, hp, hnull, -⟩ := hright mem s h
    rw [strrchr_eq_null h hl hnone] at hp
    exact hnull.mp (Option.some.inj hp).symm (mem_withNul_iff.mpr ⟨0, Nat.zero_le _, hhead.1⟩)

/-! ## All of them -/

/-- The byte behind the first `n` is the same in both strings, if those are. -/
def StrncmpOk (a b : List Byte) (n : ℕ) : Prop :=
  (withNul a).take n = (withNul b).take n → (withNul a)[n]? = (withNul b)[n]?

instance (a b : List Byte) (n : ℕ) : Decidable (StrncmpOk a b n) := inferInstanceAs (Decidable (_ → _))

theorem take_succ_eq_iff {α : Type*} (u v : List α) (n : ℕ) :
    u.take (n + 1) = v.take (n + 1) ↔ u.take n = v.take n ∧ u[n]? = v[n]? := by
  constructor
  · intro h
    have hget := congrArg (·[n]?) h
    have htake := congrArg (List.take n) h
    simp only [List.getElem?_take_of_lt (Nat.lt_succ_self n)] at hget
    rw [List.take_take, List.take_take, Nat.min_eq_left (Nat.le_succ n)] at htake
    exact ⟨htake, hget⟩
  · rintro ⟨htake, hget⟩
    rw [List.take_add_one, List.take_add_one, htake, hget]

theorem strncmp_rightIff (h1 : StrAt mem p1 a) (h2 : StrAt mem p2 b) (n : BitVec 32) :
    StrncmpRight mem p1 p2 n a b ↔ StrncmpOk a b n.toNat := by
  rw [StrncmpRight, strncmp_eq_zero_iff h1 h2, take_succ_eq_iff, StrncmpOk]
  constructor
  · intro h htake
    exact (h.mpr htake).2
  · intro h
    exact ⟨And.left, fun htake => ⟨htake, h htake⟩⟩

/-- The three functions for one choice of strings. -/
structure StringFnsRight (mem : Mem) (p1 p2 src dest n : BitVec 32) (a b l : List Byte) (c : Byte) : Prop where
  strncmp : StrncmpRight mem p1 p2 n a b
  strncpy : StrncpyRight mem dest src n
  strrchr : StrrchrRight l c

theorem stringFns_rightIff {src dest : BitVec 32} (h1 : StrAt mem p1 a) (h2 : StrAt mem p2 b) (h : StrAt mem src l)
    (hdis : Apart src dest l n.toNat) (c : Byte) :
    StringFnsRight mem p1 p2 src dest n a b l c ↔
      StrncmpOk a b n.toNat ∧ (n = 0 ∨ 2 ^ 31 < n.toNat ∨ l.length < n.toNat) ∧ StrrchrOk l c := by
  rw [← strncmp_rightIff h1 h2, ← strncpy_rightIff h hdis, ← strrchr_rightIff h]
  exact ⟨fun h => ⟨h.1, h.2, h.3⟩, fun h => ⟨h.1, h.2.1, h.2.2⟩⟩

/-- "a" at 16, "a" again at 18, and "ab" at 32. -/
def someStrings : Mem := fun k => if k = 16 ∨ k = 18 ∨ k = 32 then 97 else if k = 33 then 98 else 0

theorem someStrings_a : StrAt someStrings 16 [97] := ⟨by decide, by decide, by decide, by decide⟩

theorem someStrings_a' : StrAt someStrings 18 [97] := ⟨by decide, by decide, by decide, by decide⟩

theorem someStrings_ab : StrAt someStrings 32 [97, 98] := ⟨by decide, by decide, by decide, by decide⟩

theorem stringFns_rightIff_two : StringFnsRight someStrings 16 18 32 64 3 [97] [97] [97, 98] 98 :=
  (stringFns_rightIff someStrings_a someStrings_a' someStrings_ab (by decide) 98).mpr (by decide)

/-- `strncmp("a", "ab", 1)` is not 0, `strncpy(dest, "ab", 2)` writes `dest[2]`, and `strrchr("a", 'a')` is NULL. -/
theorem stringFns_wrong :
    ¬ StrncmpRight someStrings 16 32 1 [97] [97, 98] ∧ ¬ StrncpyRight someStrings 64 32 2 ∧ ¬ StrrchrRight [97] 97 := by
  refine ⟨fun h => ?_, fun h => ?_, fun h => ?_⟩
  · exact absurd ((strncmp_rightIff someStrings_a someStrings_ab 1).mp h) (by decide)
  · exact absurd ((strncpy_rightIff someStrings_ab (by decide)).mp h) (by decide)
  · exact absurd ((strrchr_rightIff someStrings_a 97).mp h) (by decide)

end

end Shaunos.Insns
