import Shaunos.Mm.UserCopy

/-!
# Copying from user memory

Reference: `Kernel/kthread.c` (`probe_for_read`, `copy_from_user`), `lib/string.c` (`memcpy`).

The probe adds the size to the address in 32 bits and does not look at the pages. What is read is the memory of
`mem`; the buffer at `dest` is memory of the kernel and is kept apart from it.

* `copyIn_right_iff` — when what was copied is the user's.
-/

namespace Shaunos.Mm

/-! ## The code -/

def eFAULT : ℤ := 14

/-- `probe_for_read`. -/
def probeForRead (addr size : BitVec 32) : ℤ :=
  if size.toInt < 0 then -eINVAL
  else if size = 0 then 0
  else if addr + size > pageOffset then -eFAULT
  else 0

/-- The kernel reads `n` bytes from `s` on; a page that is not present ends in `bsod`. -/
def fetch (as : AddrSpace) (mem : Memory) : (s : BitVec 32) → (n : ℕ) → Option (List (BitVec 8))
  | _, 0 => some []
  | s, n + 1 => if as.Allows pgBitPresent s then (fetch as mem (s + 1) n).map (mem s :: ·) else none

/-- The `switch` of `copy_from_user`: sizes 6 and 8 are read in two words. -/
def copyIn (as : AddrSpace) (mem : Memory) (s : BitVec 32) (n : ℕ) : Option (List (BitVec 8)) :=
  if n = 6 ∨ n = 8 then do
    let word ← fetch as mem s 4
    let rest ← fetch as mem (s + 4) (n - 4)
    return word ++ rest
  else fetch as mem s n

/-- `copy_from_user`: its result, and the buffer at `dest`. -/
def copyFromUser (as : AddrSpace) (mem : Memory) (dest src size : BitVec 32) (buf : ℕ → BitVec 8) :
    Option (ℤ × (ℕ → BitVec 8)) :=
  if size.toInt < 0 then some (-eINVAL, buf)
  else if size = 0 then some (0, buf)
  else if dest = 0 ∨ src = 0 then some (0, buf)
  else if probeForRead src size < 0 then some (-eFAULT, buf)
  else (copyIn as mem src size.toNat).map fun data => (0, fun i => data.getD i (buf i))

/-! ## What it should do -/

/-- A copy of some bytes that succeeds has copied all of the range and nothing else, and the range is below the
kernel and in pages of the user. -/
structure CopyInRight (as : AddrSpace) (dest src size : BitVec 32) : Prop where
  below : ∀ mem buf buf', copyFromUser as mem dest src size buf = some (0, buf') → 0 < size.toInt →
    src.toNat + size.toNat ≤ pageOffset.toNat
  copied : ∀ mem buf buf', copyFromUser as mem dest src size buf = some (0, buf') → 0 < size.toInt →
    ∀ i, buf' i = if i < size.toNat then mem (src + BitVec.ofNat 32 i) else buf i
  user : ∀ mem buf buf', copyFromUser as mem dest src size buf = some (0, buf') → 0 < size.toInt →
    ∀ i < size.toNat, as.Allows pgBitUser (src + BitVec.ofNat 32 i)

/-- When it does. There is nothing to copy; or no pointer is null, and the range is refused, or the kernel does
not come back from a page that is not present, or the range does not wrap and all of its pages are the user's. -/
def CopyInOk (as : AddrSpace) (dest src size : BitVec 32) : Prop :=
  size.toInt ≤ 0 ∨ dest ≠ 0 ∧ src ≠ 0 ∧
    (src + size > pageOffset ∨ (∃ i < size.toNat, ¬ as.Allows pgBitPresent (src + BitVec.ofNat 32 i)) ∨
      (src.toNat + size.toNat < 2 ^ 32 ∧ ∀ i < size.toNat, as.Allows pgBitUser (src + BitVec.ofNat 32 i)))

/-! ## Reading -/

section

variable {as : AddrSpace} {mem : Memory} {dest src size s : BitVec 32} {n k i : ℕ} {data : List (BitVec 8)}

theorem fetch_add (as : AddrSpace) (mem : Memory) (s : BitVec 32) (k n : ℕ) :
    fetch as mem s (k + n) = (fetch as mem s k).bind fun word =>
      (fetch as mem (s + BitVec.ofNat 32 k) n).map (word ++ ·) := by
  induction k generalizing s with
  | zero => simp [fetch]
  | succ k ih =>
      rw [Nat.add_right_comm, fetch, fetch]
      split
      · rw [ih, add_one_add]
        cases fetch as mem (s + 1) k with
        | none => rfl
        | some word =>
            cases fetch as mem (s + BitVec.ofNat 32 (k + 1)) n with
            | none => rfl
            | some rest => rfl
      · rfl

/-- Two words are read as their bytes are. -/
theorem copyIn_eq : copyIn as mem s n = fetch as mem s n := by
  rw [copyIn]
  split
  · rename_i hn
    obtain ⟨k, rfl⟩ : ∃ k, n = 4 + k := ⟨n - 4, by omega⟩
    rw [fetch_add, Nat.add_sub_cancel_left]
    cases fetch as mem s 4 with
    | none => rfl
    | some word =>
        have h4 : s + 4 = s + BitVec.ofNat 32 4 := rfl
        rw [h4]
        cases fetch as mem (s + BitVec.ofNat 32 4) k with
        | none => rfl
        | some rest => rfl
  · rfl

/-- The kernel comes back if all pages are present, with the bytes of the range. -/
theorem fetch_eq_some (h : ∀ i < n, as.Allows pgBitPresent (s + BitVec.ofNat 32 i)) :
    fetch as mem s n = some ((List.range n).map fun i => mem (s + BitVec.ofNat 32 i)) := by
  induction n generalizing s with
  | zero => rfl
  | succ n ih =>
      have hfirst : as.Allows pgBitPresent s := by simpa using h 0 (by omega)
      have hrest := ih (s := s + 1) fun i hi => by
        rw [add_one_add]
        exact h (i + 1) (by omega)
      rw [fetch, if_pos hfirst, hrest, List.range_succ_eq_map]
      simp only [Option.map_some, List.map_cons, List.map_map, Function.comp_def, Nat.succ_eq_add_one,
        BitVec.ofNat_eq_ofNat, BitVec.add_zero]
      congr 2
      exact List.map_congr_left fun i _ => congrArg mem (add_one_add i)

theorem fetch_eq_none (h : ∃ i < n, ¬ as.Allows pgBitPresent (s + BitVec.ofNat 32 i)) :
    fetch as mem s n = none := by
  induction n generalizing s with
  | zero =>
      obtain ⟨i, hi, -⟩ := h
      omega
  | succ n ih =>
      rw [fetch]
      split
      · rename_i hfirst
        obtain ⟨i, hi, hnot⟩ := h
        cases i with
        | zero => exact absurd hfirst (by simpa using hnot)
        | succ i =>
            rw [ih ⟨i, by omega, by rwa [add_one_add]⟩]
            rfl
      · rfl

/-! ## The copy -/

theorem toInt_pos_iff : 0 < size.toInt ↔ ¬ size.toInt < 0 ∧ size ≠ 0 := by
  constructor
  · intro h
    refine ⟨by omega, ?_⟩
    rintro rfl
    exact absurd h (by decide)
  · rintro ⟨hneg, hzero⟩
    have hne : size.toInt ≠ 0 := fun heq => hzero (BitVec.eq_of_toInt_eq (by rw [heq]; rfl))
    omega

/-- `copy_from_user` when there is something to copy. -/
theorem copyFromUser_of_pos (hpos : 0 < size.toInt) (mem : Memory) (buf : ℕ → BitVec 8) :
    copyFromUser as mem dest src size buf =
      if dest = 0 ∨ src = 0 then some (0, buf)
      else if src + size > pageOffset then some (-eFAULT, buf)
      else (fetch as mem src size.toNat).map fun data => (0, fun i => data.getD i (buf i)) := by
  have ⟨hneg, hzero⟩ := toInt_pos_iff.mp hpos
  rw [copyFromUser, if_neg hneg, if_neg hzero, copyIn_eq, probeForRead, if_neg hneg, if_neg hzero]
  by_cases hnull : dest = 0 ∨ src = 0
  · rw [if_pos hnull, if_pos hnull]
  · rw [if_neg hnull, if_neg hnull]
    by_cases hroom : src + size > pageOffset
    · rw [if_pos hroom, if_pos hroom, if_pos (by decide)]
    · rw [if_neg hroom, if_neg hroom, if_neg (by decide)]

/-- The copy of a range whose pages are all present and that is not refused. -/
theorem copyFromUser_of_present (hpos : 0 < size.toInt) (hnull : ¬ (dest = 0 ∨ src = 0))
    (hroom : ¬ src + size > pageOffset)
    (hpresent : ∀ i < size.toNat, as.Allows pgBitPresent (src + BitVec.ofNat 32 i)) (mem : Memory)
    (buf : ℕ → BitVec 8) :
    copyFromUser as mem dest src size buf =
      some (0, fun i => if i < size.toNat then mem (src + BitVec.ofNat 32 i) else buf i) := by
  rw [copyFromUser_of_pos hpos, if_neg hnull, if_neg hroom, fetch_eq_some hpresent, Option.map_some]
  congr 2
  funext i
  rw [List.getD_eq_getElem?_getD, List.getElem?_map]
  by_cases hi : i < size.toNat
  · rw [List.getElem?_range hi, if_pos hi]
    rfl
  · rw [List.getElem?_eq_none (by simpa using hi), if_neg hi]
    rfl

/-- **When what was copied is the user's.** -/
theorem copyIn_right_iff (as : AddrSpace) (dest src size : BitVec 32) :
    CopyInRight as dest src size ↔ CopyInOk as dest src size := by
  rw [CopyInOk]
  by_cases hpos : 0 < size.toInt
  · rw [or_iff_right (not_le.mpr hpos)]
    have ⟨_, hzero⟩ := toInt_pos_iff.mp hpos
    have hlen : 0 < size.toNat := by
      by_contra hle
      exact hzero (BitVec.eq_of_toNat_eq (by rw [Nat.eq_zero_of_not_pos hle]; rfl))
    by_cases hnull : dest = 0 ∨ src = 0
    · -- nothing is copied, and the value returned is 0
      refine iff_of_false ?_ (by tauto)
      intro hright
      have hcopy : copyFromUser as (fun _ => 1) dest src size (fun _ => 0) = some (0, fun _ => 0) := by
        rw [copyFromUser_of_pos hpos, if_pos hnull]
      have hbyte := hright.copied _ _ _ hcopy hpos 0
      rw [if_pos hlen] at hbyte
      exact absurd hbyte (by decide)
    have hnull' : dest ≠ 0 ∧ src ≠ 0 := not_or.mp hnull
    by_cases hroom : src + size > pageOffset
    · refine iff_of_true ?_ ⟨hnull'.1, hnull'.2, .inl hroom⟩
      have hcopy : ∀ mem buf buf', copyFromUser as mem dest src size buf ≠ some (0, buf') := by
        intro mem buf buf' heq
        rw [copyFromUser_of_pos hpos, if_neg hnull, if_pos hroom] at heq
        exact absurd (Prod.mk.inj (Option.some.inj heq)).1 (by decide)
      exact ⟨fun _ _ _ h => absurd h (hcopy _ _ _), fun _ _ _ h => absurd h (hcopy _ _ _),
        fun _ _ _ h => absurd h (hcopy _ _ _)⟩
    by_cases hpresent : ∀ i < size.toNat, as.Allows pgBitPresent (src + BitVec.ofNat 32 i)
    · have hcopy := copyFromUser_of_present hpos hnull hroom hpresent
      -- the sum is at most `__PAGE_OFFSET`, so it is the end of the range if it does not wrap
      have hpo : pageOffset.toNat = 0xC0000000 := rfl
      have hsum : (src + size).toNat ≤ pageOffset.toNat := not_lt.mp hroom
      rw [BitVec.toNat_add] at hsum
      have hends : src.toNat + size.toNat < 2 ^ 32 ↔ src.toNat + size.toNat ≤ pageOffset.toNat := by
        have := src.isLt
        omega
      rw [hends]
      constructor
      · intro hright
        exact ⟨hnull'.1, hnull'.2, .inr (.inr ⟨hright.below _ _ _ (hcopy (fun _ => 0) fun _ => 0) hpos,
          hright.user _ _ _ (hcopy (fun _ => 0) fun _ => 0) hpos⟩)⟩
      · rintro ⟨_, _, hrefused | ⟨i, hi, hnot⟩ | ⟨hbelow, huser⟩⟩
        · exact absurd hrefused hroom
        · exact absurd (hpresent i hi) hnot
        · refine ⟨fun _ _ _ _ _ => hbelow, ?_, fun _ _ _ _ _ => huser⟩
          intro mem buf buf' h _ i
          rw [hcopy] at h
          rw [← (Prod.mk.inj (Option.some.inj h)).2]
    · have hmissing : ∃ i < size.toNat, ¬ as.Allows pgBitPresent (src + BitVec.ofNat 32 i) := by
        simpa using hpresent
      refine iff_of_true ?_ ⟨hnull'.1, hnull'.2, .inr (.inl hmissing)⟩
      have hcopy : ∀ mem buf r, copyFromUser as mem dest src size buf ≠ some r := by
        intro mem buf r heq
        rw [copyFromUser_of_pos hpos, if_neg hnull, if_neg hroom, fetch_eq_none hmissing] at heq
        cases heq
      exact ⟨fun _ _ _ h => absurd h (hcopy _ _ _), fun _ _ _ h => absurd h (hcopy _ _ _),
        fun _ _ _ h => absurd h (hcopy _ _ _)⟩
  · refine iff_of_true ?_ (.inl (not_lt.mp hpos))
    exact ⟨fun _ _ _ _ h => absurd h hpos, fun _ _ _ _ h => absurd h hpos, fun _ _ _ _ h => absurd h hpos⟩

end

/-- The last 4 MiB of the address space are mapped for the kernel, and so are the first. -/
def kernelEnds : AddrSpace where
  pgd := fun i => if i = 0 ∨ i = 1023 then 0x183 else 0
  table := fun _ _ => 0

/-- Sixteen bytes from the end of the memory of the kernel on are copied to a buffer, and 0 is returned. -/
theorem copyFromUser_can_read_kernel :
    (copyFromUser kernelEnds (fun a => if a < 0xC0000000 then 0 else 7) 0xC0100000 0xFFFFFFF8 16
      (fun _ => 0)).map (fun r => (r.1, r.2 0)) = some (0, 7) ∧
      ¬ ∀ (as : AddrSpace) (dest src size : BitVec 32), CopyInRight as dest src size := by
  refine ⟨by decide +kernel, ?_⟩
  intro hall
  have hcopy : (copyFromUser kernelEnds (fun _ => 0) 0xC0100000 0xFFFFFFF8 16 fun _ => 0).map (·.1) = some 0 := by
    decide +kernel
  obtain ⟨⟨ret, buf'⟩, hcopy, hret⟩ := Option.map_eq_some_iff.mp hcopy
  obtain rfl : ret = 0 := hret
  exact absurd ((hall kernelEnds 0xC0100000 0xFFFFFFF8 16).below _ _ _ hcopy (by decide)) (by decide)

end Shaunos.Mm
