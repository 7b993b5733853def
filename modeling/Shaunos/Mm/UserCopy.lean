import Mathlib

/-!
# Copying to user memory

Reference: `Kernel/kthread.c` (`probe_for_write`, `copy_to_user`), `Include/kernel/page.h`,
`Include/kernel/kernel.h` (`BUG`), `Kernel/irq.c` (`bsod`).

The kernel runs without `CR0.WP`, so that it may write to every page that is present. A page fault in
the kernel ends in `bsod` and a failed probe in `BUG`, and neither comes back.

* `probeForWrite_iff` — what the probe of an address looks at;
* `isolated_iff` — when a copy that succeeds has written to the pages of the user.
-/

namespace Shaunos.Mm

/-! ## The code -/

def pageOffset : BitVec 32 := 0xC0000000

/-- `PDE_INDEX`. -/
def pdeIndex (x : BitVec 32) : BitVec 10 := x.extractLsb' 22 10

/-- `PTE_INDEX`. -/
def pteIndex (x : BitVec 32) : BitVec 10 := x.extractLsb' 12 10

/-- The frame of an entry of a page directory. -/
def frame (x : BitVec 32) : BitVec 20 := x.extractLsb' 12 20

def pgBitPresent : ℕ := 0
def pgBitRw : ℕ := 1
def pgBitUser : ℕ := 2
def pgBitPse : ℕ := 7

/-- An address space: the page directory of `cr3`, and the page tables by their frames. -/
structure AddrSpace where
  pgd : BitVec 10 → BitVec 32
  table : BitVec 20 → BitVec 10 → BitVec 32

/-- The entry of the page table for an address. -/
def AddrSpace.pte (as : AddrSpace) (addr : BitVec 32) : BitVec 32 :=
  as.table (frame (as.pgd (pdeIndex addr))) (pteIndex addr)

/-- `probe_for_write`. -/
def probeForWrite (as : AddrSpace) (addr size : BitVec 32) : ℤ :=
  if addr + size > pageOffset then -1
  else
    let pde := as.pgd (pdeIndex addr)
    if pde = 0 then -1
    else if pde.getLsbD pgBitPresent = false then -1
    else if pde.getLsbD pgBitPse = false then
      let pte := as.pte addr
      if pte = 0 then -1
      else if pte.getLsbD pgBitPresent = false then -1
      else 0
    else 0

/-- `PAGE_ALIGN`. -/
def pageAlign (x : BitVec 32) : BitVec 32 := (x + 4095#32) &&& ~~~4095#32

/-- Both levels of the tables have a bit set for an address. -/
def AddrSpace.Allows (as : AddrSpace) (bit : ℕ) (addr : BitVec 32) : Prop :=
  (as.pgd (pdeIndex addr)).getLsbD bit = true ∧
    ((as.pgd (pdeIndex addr)).getLsbD pgBitPse = true ∨ (as.pte addr).getLsbD bit = true)

instance (as : AddrSpace) (bit : ℕ) (addr : BitVec 32) : Decidable (as.Allows bit addr) :=
  inferInstanceAs (Decidable (_ ∧ _))

/-- Bytes by their addresses. -/
abbrev Memory := BitVec 32 → BitVec 8

/-- The kernel writes bytes from `d` on; a page that is not present ends in `bsod`. -/
def store (as : AddrSpace) (mem : Memory) (d : BitVec 32) : List (BitVec 8) → Option Memory
  | [] => some mem
  | x :: data =>
      if as.Allows pgBitPresent d then store as (Function.update mem d x) (d + 1) data
      else none

/-- The `switch` of `copy_to_user`: sizes 6 and 8 are written in two words. -/
def copyOut (as : AddrSpace) (mem : Memory) (d : BitVec 32) (data : List (BitVec 8)) : Option Memory :=
  if data.length = 6 ∨ data.length = 8 then
    (store as mem d (data.take 4)).bind fun mem => store as mem (d + 4) (data.drop 4)
  else store as mem d data

def eINVAL : ℤ := 22

/-- `copy_to_user`, for the bytes `data` from `src` on. -/
def copyToUser (as : AddrSpace) (mem : Memory) (dest src size : BitVec 32) (data : ℕ → BitVec 8) :
    Option (ℤ × Memory) :=
  if size.toInt < 0 then some (-eINVAL, mem)
  else if size = 0 then some (0, mem)
  else if dest = 0 ∨ src = 0 then some (0, mem)
  else
    let nrPg := pageAlign size >>> 12
    if ∃ i < nrPg.toNat, probeForWrite as (dest + BitVec.ofNat 32 i <<< 12) 4096 < 0 then none
    else (copyOut as mem dest ((List.range size.toNat).map data)).map fun mem => (size.toInt, mem)

/-! ## What it should do -/

/-- A byte of a page of the user that may be written to. -/
def AddrSpace.UserWritable (as : AddrSpace) (addr : BitVec 32) : Prop :=
  as.Allows pgBitPresent addr ∧ as.Allows pgBitUser addr ∧ as.Allows pgBitRw addr

/-- All bytes of a range are below the kernel and in pages of the user. -/
def UserRange (as : AddrSpace) (dest : BitVec 32) (size : ℕ) : Prop :=
  ∀ i < size, dest.toNat + i < pageOffset.toNat ∧ as.UserWritable (dest + BitVec.ofNat 32 i)

/-- A copy that succeeds is to a range of the user, and no byte outside the range is written. -/
structure Isolated (as : AddrSpace) (mem : Memory) (dest src size : BitVec 32) (data : ℕ → BitVec 8) :
    Prop where
  user : ∀ ret mem', copyToUser as mem dest src size data = some (ret, mem') → 0 ≤ ret →
    UserRange as dest size.toNat
  frame : ∀ ret mem', copyToUser as mem dest src size data = some (ret, mem') →
    ∀ a, (∀ i < size.toNat, a ≠ dest + BitVec.ofNat 32 i) → mem' a = mem a

/-- When it does. Nothing is copied, and the range is the user's all the same if a pointer is null; or the
kernel does not come back, from a probe that fails or from a page that is not present; or `dest` is not in
the last page of all, and every page of the range has its bits for the user and for writing. -/
def CopyOk (as : AddrSpace) (dest src size : BitVec 32) : Prop :=
  size.toInt < 0 ∨ size = 0 ∨
    if dest = 0 ∨ src = 0 then UserRange as dest size.toNat
    else
      (∃ i < (size.toNat + 4095) / 4096,
          probeForWrite as (dest + BitVec.ofNat 32 i <<< 12) 4096 < 0) ∨
        (∃ i < size.toNat, ¬ as.Allows pgBitPresent (dest + BitVec.ofNat 32 i)) ∨
        (dest < 0xFFFFF000 ∧ ∀ i < size.toNat,
          as.Allows pgBitUser (dest + BitVec.ofNat 32 i) ∧ as.Allows pgBitRw (dest + BitVec.ofNat 32 i))

/-! ## The probe -/

section

variable {as : AddrSpace} {mem mem' : Memory} {dest src size addr d a : BitVec 32}
  {data : List (BitVec 8)}

theorem getLsbD_ne_zero {x : BitVec 32} {bit : ℕ} (h : x.getLsbD bit = true) : x ≠ 0 := by
  rintro rfl
  simp at h

/-- The probe finds an address present, with some room below `__PAGE_OFFSET`. -/
theorem probeForWrite_iff : ¬ probeForWrite as addr size < 0 ↔
    addr + size ≤ pageOffset ∧ as.Allows pgBitPresent addr := by
  rw [probeForWrite, AddrSpace.Allows]
  by_cases hroom : addr + size > pageOffset
  · rw [if_pos hroom]
    exact iff_of_false (by decide) fun h => absurd h.1 (by bv_omega)
  have hle : addr + size ≤ pageOffset := by bv_omega
  rw [if_neg hroom]
  dsimp only
  by_cases hpde : (as.pgd (pdeIndex addr)).getLsbD pgBitPresent = true
  · rw [if_neg (getLsbD_ne_zero hpde), if_neg (by simp [hpde])]
    by_cases hpse : (as.pgd (pdeIndex addr)).getLsbD pgBitPse = true
    · rw [if_neg (by simp [hpse])]
      exact iff_of_true (by decide) ⟨hle, hpde, .inl hpse⟩
    rw [if_pos (Bool.eq_false_iff.mpr hpse)]
    by_cases hpte : (as.pte addr).getLsbD pgBitPresent = true
    · rw [if_neg (getLsbD_ne_zero hpte), if_neg (by simp [hpte])]
      exact iff_of_true (by decide) ⟨hle, hpde, .inr hpte⟩
    · rw [if_pos (Bool.eq_false_iff.mpr hpte), ite_self]
      exact iff_of_false (by decide) fun h => h.2.2.elim hpse hpte
  · rw [if_pos (Bool.eq_false_iff.mpr hpde), ite_self]
    exact iff_of_false (by decide) fun h => hpde h.2.1

/-- The number of pages that a range of so many bytes takes when it starts at the start of one. -/
theorem nrPg_eq (hsize : 0 ≤ size.toInt) : (pageAlign size >>> 12).toNat = (size.toNat + 4095) / 4096 := by
  have hcut : pageAlign size >>> 12 = (size + 4095#32) >>> 12 := by
    ext i hi
    rw [pageAlign]
    simp only [BitVec.getElem_ushiftRight, BitVec.getLsbD_and, BitVec.getLsbD_not]
    have hbit : (4095#32).getLsbD (12 + i) = false := by
      rw [BitVec.getLsbD, BitVec.toNat_ofNat]
      refine Nat.testBit_lt_two_pow ?_
      calc 4095 % 2 ^ 32 < 2 ^ 12 := by decide
        _ ≤ 2 ^ (12 + i) := Nat.pow_le_pow_right (by decide) (by omega)
    rw [hbit]
    by_cases hlt : 12 + i < 32
    · simp [hlt]
    · rw [BitVec.getLsbD_of_ge _ _ (by omega)]
      simp
  have hlt : size.toNat < 2 ^ 31 := by
    rw [BitVec.toInt_eq_toNat_cond] at hsize
    have := size.isLt
    split at hsize <;> omega
  rw [hcut, BitVec.toNat_ushiftRight, BitVec.toNat_add, Nat.shiftRight_eq_div_pow]
  have h4095 : (4095#32).toNat = 4095 := rfl
  rw [h4095, Nat.mod_eq_of_lt (by omega)]

/-! ## Writing -/

/-- The address of a byte of a range, from the byte behind the first one. -/
theorem add_one_add (i : ℕ) : d + 1 + BitVec.ofNat 32 i = d + BitVec.ofNat 32 (i + 1) := by
  rw [BitVec.ofNat_add, BitVec.add_assoc, BitVec.add_comm 1]
  rfl

theorem store_append (as : AddrSpace) (mem : Memory) (d : BitVec 32) (l l' : List (BitVec 8)) :
    store as mem d (l ++ l') = (store as mem d l).bind fun mem =>
      store as mem (d + BitVec.ofNat 32 l.length) l' := by
  induction l generalizing mem d with
  | nil => simp [store]
  | cons x l ih =>
      rw [List.cons_append, store, store]
      split
      · rw [ih, add_one_add, List.length_cons]
      · rfl

/-- Two words are written as their bytes are. -/
theorem copyOut_eq : copyOut as mem d data = store as mem d data := by
  rw [copyOut]
  split
  · rename_i hlen
    have happ := store_append as mem d (data.take 4) (data.drop 4)
    rw [List.take_append_drop, List.length_take] at happ
    have hmin : min 4 data.length = 4 := by omega
    rw [happ, hmin]
    rfl
  · rfl

/-- The kernel comes back if all pages are present. -/
theorem store_isSome : (store as mem d data).isSome = true ↔
    ∀ i < data.length, as.Allows pgBitPresent (d + BitVec.ofNat 32 i) := by
  induction data generalizing mem d with
  | nil => simp [store]
  | cons x data ih =>
      rw [store]
      split
      · rename_i hd
        rw [ih]
        constructor
        · intro h i hi
          cases i with
          | zero => simpa using hd
          | succ i =>
              rw [← add_one_add]
              exact h i (by simpa using hi)
        · intro h i hi
          rw [add_one_add]
          exact h (i + 1) (by simpa using hi)
      · rename_i hd
        refine iff_of_false (by simp) fun h => hd ?_
        simpa using h 0 (by simp)

theorem store_frame (h : store as mem d data = some mem')
    (ha : ∀ i < data.length, a ≠ d + BitVec.ofNat 32 i) : mem' a = mem a := by
  induction data generalizing mem d with
  | nil => rw [Option.some.inj h]
  | cons x data ih =>
      rw [store] at h
      split at h
      · have hne : a ≠ d := by simpa using ha 0 (by simp)
        rw [ih h, Function.update_of_ne hne]
        intro i hi
        rw [add_one_add]
        exact ha (i + 1) (by simpa using hi)
      · cases h

/-! ## Isolation -/

/-- The address that is probed for a page. -/
theorem toNat_probed {i : ℕ} (h : dest.toNat + 4096 * i < 2 ^ 32) :
    (dest + BitVec.ofNat 32 i <<< 12).toNat = dest.toNat + 4096 * i := by
  have hi : (BitVec.ofNat 32 i <<< 12).toNat = 4096 * i := by
    rw [BitVec.toNat_shiftLeft, BitVec.toNat_ofNat, Nat.mod_eq_of_lt (by omega), Nat.shiftLeft_eq]
    omega
  rw [BitVec.toNat_add, hi]
  omega

/-- When the probes succeed for a range that does not start in the last page, it ends below the kernel. -/
theorem below_of_probes {n : ℕ} (hdest : dest < 0xFFFFF000)
    (hprobe : ∀ i < n, ¬ probeForWrite as (dest + BitVec.ofNat 32 i <<< 12) 4096 < 0) :
    ∀ i < n, dest.toNat + 4096 * (i + 1) ≤ pageOffset.toNat := by
  have hdest' : dest.toNat < 0xFFFFF000 := hdest
  have hpo : pageOffset.toNat = 0xC0000000 := rfl
  have h4096 : (4096 : BitVec 32).toNat = 4096 := rfl
  -- what the probe of one address says about it
  have hroom : ∀ i < n, dest.toNat + 4096 * i < 0xFFFFF000 →
      dest.toNat + 4096 * (i + 1) ≤ pageOffset.toNat := by
    intro i hi hlt
    have hle := (probeForWrite_iff.mp (hprobe i hi)).1
    rw [BitVec.le_def, BitVec.toNat_add, toNat_probed (by omega), h4096] at hle
    omega
  intro i
  induction i with
  | zero => exact fun hi => hroom 0 hi (by omega)
  | succ i ih =>
      intro hi
      have hbelow := ih (by omega)
      exact hroom (i + 1) hi (by omega)

variable (as mem dest src size) (bytes : ℕ → BitVec 8)

/-- **A copy that succeeds has written to pages of the user only if and only if the condition holds.** -/
theorem isolated_iff : Isolated as mem dest src size bytes ↔ CopyOk as dest src size := by
  have hlen : ((List.range size.toNat).map bytes).length = size.toNat := by simp
  have hframe : ∀ ret mem', copyToUser as mem dest src size bytes = some (ret, mem') →
      ∀ a, (∀ i < size.toNat, a ≠ dest + BitVec.ofNat 32 i) → mem' a = mem a := by
    intro ret mem' hcopy a ha
    rw [copyToUser] at hcopy
    dsimp only at hcopy
    split_ifs at hcopy
    · rw [(Prod.mk.inj (Option.some.inj hcopy)).2]
    · rw [(Prod.mk.inj (Option.some.inj hcopy)).2]
    · rw [(Prod.mk.inj (Option.some.inj hcopy)).2]
    · have ⟨mem'', hstore, hpair⟩ := Option.map_eq_some_iff.mp hcopy
      rw [copyOut_eq] at hstore
      rw [← (Prod.mk.inj hpair).2]
      exact store_frame hstore fun i hi => ha i (hlen ▸ hi)
  have hiff : Isolated as mem dest src size bytes ↔
      ∀ ret mem', copyToUser as mem dest src size bytes = some (ret, mem') → 0 ≤ ret →
        UserRange as dest size.toNat := ⟨Isolated.user, fun h => ⟨h, hframe⟩⟩
  rw [hiff, CopyOk]
  by_cases hneg : size.toInt < 0
  · refine iff_of_true ?_ (.inl hneg)
    intro ret mem' hcopy hret
    rw [copyToUser, if_pos hneg] at hcopy
    obtain ⟨rfl, rfl⟩ := Prod.mk.inj (Option.some.inj hcopy)
    exact absurd hret (by decide)
  by_cases hzero : size = 0
  · refine iff_of_true ?_ (.inr (.inl hzero))
    intro _ _ _ _ i hi
    rw [hzero] at hi
    exact absurd hi (Nat.not_lt_zero i)
  simp only [hneg, hzero, false_or]
  by_cases hnull : dest = 0 ∨ src = 0
  · -- nothing is copied, and the value returned is 0
    rw [if_pos hnull]
    have hcopy : copyToUser as mem dest src size bytes = some (0, mem) := by
      rw [copyToUser, if_neg hneg, if_neg hzero, if_pos hnull]
    exact ⟨fun h => h 0 mem hcopy le_rfl, fun h _ _ _ _ => h⟩
  rw [if_neg hnull]
  have hcode : copyToUser as mem dest src size bytes =
      if ∃ i < (size.toNat + 4095) / 4096,
          probeForWrite as (dest + BitVec.ofNat 32 i <<< 12) 4096 < 0 then none
      else (store as mem dest ((List.range size.toNat).map bytes)).map fun mem => (size.toInt, mem) := by
    rw [copyToUser, if_neg hneg, if_neg hzero, if_neg hnull]
    dsimp only
    rw [nrPg_eq (not_lt.mp hneg), copyOut_eq]
  rw [hcode]
  by_cases hprobe : ∃ i < (size.toNat + 4095) / 4096,
      probeForWrite as (dest + BitVec.ofNat 32 i <<< 12) 4096 < 0
  · rw [if_pos hprobe]
    exact iff_of_true (fun _ _ hcopy => by cases hcopy) (.inl hprobe)
  rw [if_neg hprobe]
  by_cases hpresent : ∀ i < size.toNat, as.Allows pgBitPresent (dest + BitVec.ofNat 32 i)
  · have hsome : (store as mem dest ((List.range size.toNat).map bytes)).isSome = true :=
      store_isSome.mpr fun i hi => hpresent i (hlen ▸ hi)
    have ⟨mem', hstore⟩ := Option.isSome_iff_exists.mp hsome
    have hpos : 0 < size.toNat := by
      by_contra hle
      exact hzero (BitVec.eq_of_toNat_eq (by rw [Nat.eq_zero_of_not_pos hle]; rfl))
    have hpo : pageOffset.toNat = 0xC0000000 := rfl
    constructor
    · intro h
      have huser := h size.toInt mem' (by rw [hstore]; rfl) (not_lt.mp hneg)
      refine .inr (.inr ⟨?_, fun i hi => (huser i hi).2.2⟩)
      have hfirst := (huser 0 hpos).1
      rw [BitVec.lt_def]
      have htop : (0xFFFFF000 : BitVec 32).toNat = 0xFFFFF000 := rfl
      omega
    · rintro (hfail | ⟨i, hi, hnot⟩ | ⟨hdest, hbits⟩) _ _ _ _
      · exact absurd hfail hprobe
      · exact absurd (hpresent i hi) hnot
      · have hbelow := below_of_probes hdest fun i hi hlt => hprobe ⟨i, hi, hlt⟩
        intro i hi
        refine ⟨?_, hpresent i hi, hbits i hi⟩
        have hlast := hbelow (i / 4096) (by omega)
        omega
  · refine iff_of_true ?_ (.inr (.inl (by simpa using hpresent)))
    intro ret mem' hcopy
    have ⟨mem'', hstore, _⟩ := Option.map_eq_some_iff.mp hcopy
    refine absurd ?_ hpresent
    intro i hi
    exact store_isSome.mp (by rw [hstore]; rfl) i (hlen.symm ▸ hi)

end

/-- The first page of all is mapped for the kernel. -/
def identityMap : AddrSpace where
  pgd := fun i => if i = 0 then 0x183 else 0
  table := fun _ _ => 0

/-- A byte goes to the page of the kernel at address 4096. -/
theorem copyToUser_can_write_kernel :
    ∃ mem', copyToUser identityMap (fun _ => 0) 4096 1 1 (fun _ => 7) = some (1, mem') ∧
      mem' 4096 = 7 ∧ ¬ identityMap.UserWritable 4096 ∧
      ¬ Isolated identityMap (fun _ => 0) 4096 1 1 (fun _ => 7) := by
  have hcopy : (copyToUser identityMap (fun _ => 0) 4096 1 1 (fun _ => 7)).map
      (fun r => (r.1, r.2 4096)) = some (1, 7) := by
    decide +kernel
  have ⟨⟨ret, mem'⟩, hres, hpair⟩ := Option.map_eq_some_iff.mp hcopy
  obtain ⟨rfl, hbyte⟩ := Prod.mk.inj hpair
  have hkernel : ¬ identityMap.UserWritable 4096 := by
    intro h
    exact absurd h.2.1 (by decide)
  refine ⟨mem', hres, hbyte, hkernel, ?_⟩
  intro h
  have huser := h.user 1 mem' hres (by decide) 0 (by decide)
  exact hkernel huser.2

end Shaunos.Mm
