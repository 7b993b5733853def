import Mathlib
import Shaunos.Mm.BuddyRun
import Shaunos.Mm.Lowmem

/-!
# `alloc_pages` for every flag

Reference: `Kernel/mm.c` (`alloc_pages`, `__alloc_pages`).

A run makes calls of `alloc_pages` for low and for normal memory, with and without `ALLOC_ZEROED`,
and calls of `free_pages`; between them the clients write their memory. The bytes here are those
that do not hold the descriptors.

`alloc_pages_buddy` reports a failure with 0 and `alloc_pages_lowmem` with -1. `__alloc_pages` tests
for 0 only, so a failure of the second kind is returned, and cleared, as if it were a block.

* `alloc_pages_right` — in runs of orderly requests for normal memory and of requests for low memory
  that are served, each call does what its caller expects; for low memory those are the only ones;
* `lowmem_failure_is_written` — a request for low memory that cannot be met.
-/

namespace Shaunos.Mm

/-- `ALLOC_ZEROED`. -/
def allocZeroed : BitVec 32 := 1#32 <<< 3

/-- The bytes of the kernel's address space. -/
abbrev KernelMem : Type := BitVec 32 → BitVec 8

/-- `memset`. -/
def memset (mem : KernelMem) (addr : BitVec 32) (c : BitVec 8) (n : BitVec 32) : KernelMem :=
  fun x => if x - addr < n then c else mem x

/-- `alloc_pages`, with what it writes to the memory that it hands out. -/
def allocPagesMem (s : State) (mem : KernelMem) (flag : BitVec 32) (order : ℤ) :
    Option (BitVec 32 × State × KernelMem) := do
  let (retval, s) ← allocPages s flag order
  if retval = 0 then return (retval, s, mem)
  else if flag &&& allocZeroed ≠ 0 then
    return (retval, s, memset mem retval 0 ((1#32 <<< order.toNat) <<< pageShift))
  else return (retval, s, mem)

/-- The flag argument of a call. -/
def allocFlag (lowmem zeroed : Bool) : BitVec 32 :=
  (if lowmem then allocLowmem else allocNormal) ||| if zeroed then allocZeroed else 0

/-! ## Runs -/

/-- A machine as `mem_init` finds it. -/
structure Machine extends Boot where
  /-- Low memory ends below 1 MiB. -/
  low_le : mm.lowmemPages ≤ 256

/-- The allocator, its clients and their memory. -/
structure Clients where
  /-- The allocator, and the blocks of normal memory. -/
  sys : Sys
  /-- The blocks of low memory handed out and not freed. -/
  low : List Alloc
  mem : KernelMem

/-- What clients do. -/
inductive Request where
  | alloc (lowmem zeroed : Bool) (order : ℤ)
  | free (a : Alloc)
  /-- The memory is written. -/
  | store (mem : KernelMem)

/-- One request. On the allocator and on the list of live blocks, an allocation of normal memory does
what `Sys.call` does. -/
def Clients.call (σ : Clients) : Request → Option Clients
  | .alloc true zeroed order => do
      let (addr, mm, mem) ← allocPagesMem σ.sys.mm σ.mem (allocFlag true zeroed) order
      return {
        sys := { σ.sys with mm }
        low := if addr = 0 then σ.low else ⟨addr, order.toNat⟩ :: σ.low
        mem }
  | .alloc false zeroed order => do
      let (_, _, mem) ← allocPagesMem σ.sys.mm σ.mem (allocFlag false zeroed) order
      let sys ← σ.sys.call (.alloc order)
      return { σ with sys, mem }
  | .free a =>
      if a ∈ σ.low then do
        let mm ← freePages σ.sys.mm a.order a.addr
        return { σ with sys := { σ.sys with mm }, low := σ.low.erase a }
      else do
        let sys ← σ.sys.call (.free a)
        return { σ with sys }
  | .store mem => some { σ with mem }

/-- The machine behind `mem_init`. -/
def Machine.clients (m : Machine) (mem : KernelMem) : Clients := ⟨m.sys, [], mem⟩

/-! ## What callers expect -/

/-- The addresses of a block. -/
def blockBytes (addr : BitVec 32) (order : ℤ) : Set (BitVec 32) :=
  { x | (x - addr).toNat < 2 ^ order.toNat * 2 ^ pageShift }

/-- The addresses of the pages that the low map has for use. -/
def lowRegion (s : State) : Set (BitVec 32) :=
  { x | ∃ i < s.lowmemPages, s.LowOk i ∧ ∃ d < 2 ^ pageShift, x = lowAddr i + BitVec.ofNat 32 d }

/-- The addresses of the managed range. -/
def normalRegion (b : Boot) : Set (BitVec 32) := { x | virtToPage x ∈ Set.Icc b.start b.stop }

/-- A request can be met: there is such a block. -/
def CanMeet (b : Boot) (σ : Clients) (lowmem : Bool) (order : ℤ) : Prop :=
  if lowmem then ∃ i, Suitable σ.sys.mm (2 ^ order.toNat) i else Available b σ.sys order.toNat

/-- A request that cannot be met returns 0 and writes nothing. What is returned otherwise, if it is not
0, is a block of the region asked for, cleared if that was asked for. -/
def AllocRight (b : Boot) (σ : Clients) (lowmem zeroed : Bool) (order : ℤ) : Prop :=
  ∃ addr mm mem, allocPagesMem σ.sys.mm σ.mem (allocFlag lowmem zeroed) order
      = some (addr, mm, mem) ∧
    (¬ CanMeet b σ lowmem order → addr = 0 ∧ mm = σ.sys.mm ∧ mem = σ.mem) ∧
    (addr ≠ 0 →
      (blockBytes addr order ⊆ if lowmem then lowRegion σ.sys.mm else normalRegion b) ∧
        (zeroed = true → ∀ x ∈ blockBytes addr order, mem x = 0))

/-- Requests for normal memory are orderly, and the search for low memory finds a block. -/
def MemOk (b : Boot) (σ : Clients) : Request → Prop
  | .alloc true _ order => 0 ≤ order ∧ order ≤ 11 → LowmemServes σ.sys.mm (2 ^ order.toNat)
  | .alloc false _ order => Orderly b σ.sys (.alloc order)
  | .free _ => True
  | .store _ => True

/-! ## One call -/

theorem allocPages_lowmem (s : State) (zeroed : Bool) (order : ℤ) :
    allocPages s (allocFlag true zeroed) order =
      some (if 0 ≤ order ∧ order ≤ 11 then allocPagesLowmem s (2 ^ order.toNat : ℕ) else (0, s)) := by
  have hpos : ¬ (allocFlag true zeroed).toInt ≤ 0 := by cases zeroed <;> decide
  have hlow : allocFlag true zeroed &&& allocLowmem ≠ 0 := by cases zeroed <;> decide
  rw [allocPages, if_pos hlow]
  by_cases ho : 0 ≤ order ∧ order ≤ 11
  · rw [if_pos ho, if_neg (by omega), Nat.one_shiftLeft]
  · rw [if_neg ho, if_pos (by omega)]

theorem allocPages_normal_flag (s : State) (zeroed : Bool) (order : ℤ) :
    allocPages s (allocFlag false zeroed) order = allocPages s allocNormal order := by
  cases zeroed
  · rfl
  · have hpos : ¬ (allocFlag false true).toInt ≤ 0 := by decide
    have hlow : ¬ allocFlag false true &&& allocLowmem ≠ 0 := by decide
    have hnormal : allocFlag false true &&& allocNormal ≠ 0 := by decide
    rw [allocPages_normal, allocPages, if_neg hlow, if_pos hnormal]
    by_cases ho : 0 ≤ order ∧ order ≤ 11
    · rw [if_pos ho, if_neg (by omega)]
    · rw [if_neg ho, if_pos (by omega)]

/-- An order that is out of bounds is refused. -/
theorem order_of_allocPages {s t : State} {flag addr : BitVec 32} {order : ℤ}
    (h : allocPages s flag order = some (addr, t)) (haddr : addr ≠ 0) : 0 ≤ order ∧ order ≤ 11 := by
  by_contra ho
  rw [allocPages, if_pos (by omega)] at h
  exact haddr (Prod.mk.inj (Option.some.inj h)).1.symm

theorem memset_block {mem : KernelMem} {addr x : BitVec 32} {order : ℤ} (ho : order ≤ 11)
    (hx : x ∈ blockBytes addr order) :
    memset mem addr 0 ((1#32 <<< order.toNat) <<< pageShift) x = 0 := by
  have hlen : ((1#32 <<< order.toNat) <<< pageShift).toNat = 2 ^ order.toNat * 2 ^ pageShift := by
    have hle : order.toNat ≤ 11 := by omega
    generalize order.toNat = k at hle
    interval_cases k <;> rfl
  have hlt : x - addr < (1#32 <<< order.toNat) <<< pageShift := by
    rw [BitVec.lt_def, hlen]
    exact hx
  rw [memset, if_pos hlt]

/-- KernelMem is written behind a call that does not return 0 only, and then as the flag asks. -/
theorem allocPagesMem_spec {s t : State} {addr : BitVec 32} {lowmem zeroed : Bool} {order : ℤ}
    (mem : KernelMem) (h : allocPages s (allocFlag lowmem zeroed) order = some (addr, t)) :
    ∃ mem', allocPagesMem s mem (allocFlag lowmem zeroed) order = some (addr, t, mem') ∧
      (addr = 0 → mem' = mem) ∧
      (addr ≠ 0 → zeroed = true → ∀ x ∈ blockBytes addr order, mem' x = 0) := by
  rw [allocPagesMem, h]
  by_cases haddr : addr = 0
  · refine ⟨mem, ?_, fun _ => rfl, fun hne => absurd haddr hne⟩
    simp only [Option.bind_eq_bind, Option.bind_some, if_pos haddr]
    rfl
  · have ho := order_of_allocPages h haddr
    by_cases hz : allocFlag lowmem zeroed &&& allocZeroed ≠ 0
    · refine ⟨memset mem addr 0 ((1#32 <<< order.toNat) <<< pageShift), ?_,
        fun heq => absurd heq haddr, fun _ _ x hx => memset_block ho.2 hx⟩
      simp only [Option.bind_eq_bind, Option.bind_some, if_neg haddr, if_pos hz]
      rfl
    · refine ⟨mem, ?_, fun _ => rfl, fun _ hzeroed => absurd ?_ hz⟩
      · simp only [Option.bind_eq_bind, Option.bind_some, if_neg haddr, if_neg hz]
        rfl
      · subst hzeroed
        cases lowmem <;> decide

theorem allocPagesMem_eq {s t t' : State} {mem mem' : KernelMem} {addr addr' : BitVec 32}
    {lowmem zeroed : Bool} {order : ℤ}
    (h : allocPagesMem s mem (allocFlag lowmem zeroed) order = some (addr, t, mem'))
    (h' : allocPages s (allocFlag lowmem zeroed) order = some (addr', t')) : addr' = addr ∧ t' = t := by
  have ⟨mem'', hmem, _⟩ := allocPagesMem_spec mem h'
  have heq := Prod.mk.inj (Option.some.inj (hmem.symm.trans h))
  exact ⟨heq.1, (Prod.mk.inj heq.2).1⟩

/-! ## Requests for low memory -/

section

variable {s : State} {i j : ℕ} {order : ℤ}

theorem lowAddr_add (i k : ℕ) : lowAddr (i + k) = lowAddr i + BitVec.ofNat 32 (k * 2 ^ pageShift) := by
  apply BitVec.eq_of_toNat_eq
  simp only [lowAddr, pageShift, BitVec.toNat_add, BitVec.toNat_shiftLeft, BitVec.toNat_ofNat,
    Nat.shiftLeft_eq]
  omega

/-- A byte of a low block lies in one of its pages. -/
theorem mem_lowBlock_iff {x : BitVec 32} : x ∈ blockBytes (lowAddr i) order ↔
    ∃ k < 2 ^ order.toNat, ∃ d < 2 ^ pageShift, x = lowAddr (i + k) + BitVec.ofNat 32 d := by
  constructor
  · intro hx
    have hdiv := Nat.div_add_mod (x - lowAddr i).toNat (2 ^ pageShift)
    refine ⟨(x - lowAddr i).toNat / 2 ^ pageShift, Nat.div_lt_of_lt_mul (hx.trans_eq (Nat.mul_comm _ _)),
      (x - lowAddr i).toNat % 2 ^ pageShift, Nat.mod_lt _ (by positivity), ?_⟩
    rw [lowAddr_add, add_assoc, ← BitVec.ofNat_add, mul_comm, hdiv, BitVec.ofNat_toNat,
      BitVec.setWidth_eq, add_comm, BitVec.sub_add_cancel]
  · rintro ⟨k, hk, d, hd, rfl⟩
    have hsub : lowAddr (i + k) + BitVec.ofNat 32 d - lowAddr i =
        BitVec.ofNat 32 (k * 2 ^ pageShift + d) := by
      rw [lowAddr_add, add_assoc, ← BitVec.ofNat_add, BitVec.add_comm, BitVec.add_sub_cancel]
    have hmul : (k + 1) * 2 ^ pageShift ≤ 2 ^ order.toNat * 2 ^ pageShift :=
      Nat.mul_le_mul_right _ hk
    change (_ - lowAddr i).toNat < _
    rw [hsub, BitVec.toNat_ofNat]
    rw [Nat.succ_mul] at hmul
    exact (Nat.mod_le _ _).trans_lt (by omega)

/-- The bytes of low pages tell the pages apart. -/
theorem lowAddr_inj {d : ℕ} (hi : i < 2 ^ 12) (hj : j < 2 ^ 12) (hd : d < 2 ^ pageShift)
    (h : lowAddr i = lowAddr j + BitVec.ofNat 32 d) : i = j := by
  have hnat := congrArg BitVec.toNat h
  simp only [lowAddr, pageShift, BitVec.toNat_add, BitVec.toNat_shiftLeft, BitVec.toNat_ofNat,
    Nat.shiftLeft_eq] at hnat hd
  omega

theorem lowBlock_subset_iff (hlow : s.lowmemPages ≤ 256) (hi : i < s.lowmemPages) (ho : order ≤ 11) :
    blockBytes (lowAddr i) order ⊆ lowRegion s ↔
      ∀ k < 2 ^ order.toNat, i + k < s.lowmemPages ∧ s.LowOk (i + k) := by
  have hpow : 2 ^ order.toNat ≤ 2 ^ 11 := Nat.pow_le_pow_right (by norm_num) (by omega)
  constructor
  · intro hsub k hk
    have ⟨j, hj, hok, d, hd, heq⟩ := hsub (mem_lowBlock_iff.mpr ⟨k, hk, 0, by positivity, rfl⟩)
    rw [BitVec.add_zero] at heq
    have hjk : i + k = j := lowAddr_inj (by omega) (by omega) hd heq
    exact hjk ▸ ⟨hj, hok⟩
  · intro hall x hx
    have ⟨k, hk, d, hd, heq⟩ := mem_lowBlock_iff.mp hx
    exact ⟨i + k, (hall k hk).1, (hall k hk).2, d, hd, heq⟩

/-- The failure value of `alloc_pages_lowmem` is no address of low memory. -/
theorem failure_notMem_lowRegion (hlow : s.lowmemPages ≤ 256) : (-1 : BitVec 32) ∉ lowRegion s := by
  rintro ⟨j, hj, _, d, hd, heq⟩
  have hnat : (0xFFFFFFFF#32).toNat = _ := congrArg BitVec.toNat heq
  simp only [lowAddr, pageShift, BitVec.toNat_add, BitVec.toNat_shiftLeft, BitVec.toNat_ofNat,
    Nat.shiftLeft_eq] at hnat hd
  omega

theorem lowAddr_ne_zero (hi : i < 2 ^ 12) : lowAddr i ≠ 0 := by
  intro h
  have hnat : _ = (0#32).toNat := congrArg BitVec.toNat h
  simp only [lowAddr, pageShift, BitVec.toNat_add, BitVec.toNat_shiftLeft, BitVec.toNat_ofNat,
    Nat.shiftLeft_eq] at hnat
  omega

theorem start_mem_blockBytes (addr : BitVec 32) (order : ℤ) : addr ∈ blockBytes addr order := by
  change (addr - addr).toNat < _
  rw [BitVec.sub_self]
  exact Nat.mul_pos (by positivity) (by positivity)

end

/-- The result of `alloc_pages` is the one that the property speaks of. -/
theorem allocRight_of_eq {b : Boot} {σ : Clients} {lowmem zeroed : Bool} {order : ℤ} {addr : BitVec 32}
    {mm : State} (halloc : allocPages σ.sys.mm (allocFlag lowmem zeroed) order = some (addr, mm)) :
    AllocRight b σ lowmem zeroed order ↔
      (¬ CanMeet b σ lowmem order → addr = 0 ∧ mm = σ.sys.mm) ∧
        (addr ≠ 0 → blockBytes addr order ⊆ if lowmem then lowRegion σ.sys.mm else normalRegion b) := by
  have ⟨mem, hmem, hzero, hcleared⟩ := allocPagesMem_spec σ.mem halloc
  constructor
  · rintro ⟨addr', mm', mem', hmem', hfail, hblock⟩
    obtain ⟨rfl, rfl, rfl⟩ : addr = addr' ∧ mm = mm' ∧ mem = mem' := by
      simpa using hmem.symm.trans hmem'
    exact ⟨fun h => ⟨(hfail h).1, (hfail h).2.1⟩, fun hne => (hblock hne).1⟩
  · rintro ⟨hfail, hblock⟩
    refine ⟨addr, mm, mem, hmem, ?_, fun hne => ⟨hblock hne, hcleared hne⟩⟩
    intro h
    have ⟨haddr, hmm⟩ := hfail h
    exact ⟨haddr, hmm, hzero haddr⟩

/-- A request for low memory is answered as expected exactly when the search for it is served. -/
theorem lowmem_allocRight_iff {b : Boot} {σ : Clients} {zeroed : Bool} {order : ℤ}
    (hlow : σ.sys.mm.lowmemPages ≤ 256) :
    AllocRight b σ true zeroed order ↔ MemOk b σ (.alloc true zeroed order) := by
  have halloc := allocPages_lowmem σ.sys.mm zeroed order
  by_cases ho : 0 ≤ order ∧ order ≤ 11
  · have hnr : 0 < 2 ^ order.toNat := by positivity
    rw [if_pos ho] at halloc
    rw [MemOk, imp_iff_right ho]
    rcases allocPagesLowmem_spec (s := σ.sys.mm) hnr with
      ⟨i, htried, hopen, hfirst, hres⟩ | ⟨hnone, hres⟩
    · rw [hres] at halloc
      have hi := htried.1
      rw [allocRight_of_eq halloc, serves_iff_suitable htried hopen hfirst]
      constructor
      · rintro ⟨_, hblock⟩
        have hpages := (lowBlock_subset_iff hlow hi ho.2).mp (hblock (lowAddr_ne_zero (by omega)))
        have hlast := (hpages (2 ^ order.toNat - 1) (by omega)).1
        exact ⟨by omega, fun k hk => ⟨hopen.1 k hk, (hpages k hk).2⟩⟩
      · intro hsuit
        refine ⟨fun hcannot => absurd ⟨i, hsuit⟩ hcannot, fun _ => ?_⟩
        exact (lowBlock_subset_iff hlow hi ho.2).mpr fun k hk =>
          ⟨by have := hsuit.1; omega, (hsuit.2 k hk).2⟩
    · rw [hres] at halloc
      rw [allocRight_of_eq halloc]
      refine iff_of_false ?_ (not_serves hnone)
      rintro ⟨_, hblock⟩
      exact failure_notMem_lowRegion hlow (hblock (by decide) (start_mem_blockBytes _ _))
  · rw [if_neg ho] at halloc
    rw [allocRight_of_eq halloc]
    exact iff_of_true ⟨fun _ => ⟨rfl, rfl⟩, fun hne => absurd rfl hne⟩ fun h => absurd h ho

/-! ## Requests for normal memory -/

theorem allocPagesBuddy_addr {s t : State} {order : ℕ} {addr : BitVec 32}
    (h : allocPagesBuddy s order = some (addr, t)) (haddr : addr ≠ 0) : ∃ p, addr = pageToVirt p := by
  obtain ⟨⟨r, s'⟩, _, hr⟩ := Option.bind_eq_some_iff.mp h
  cases r with
  | none => exact absurd (Prod.mk.inj (Option.some.inj hr)).1.symm haddr
  | some p => exact ⟨p, (Prod.mk.inj (Option.some.inj hr)).1.symm⟩

/-- The bytes of a block of whole pages lie in its pages. -/
theorem virtToPage_of_mem {p : ℤ} {x : BitVec 32} {order : ℤ} (hx : x ∈ blockBytes (pageToVirt p) order)
    (hfit : virtToPage (pageToVirt p) + 2 ^ order.toNat ≤ 2 ^ 20) :
    virtToPage x ∈ (Alloc.block ⟨pageToVirt p, order.toNat⟩).pages := by
  generalize hd : (x - pageToVirt p).toNat = d at *
  have hd' : d < 2 ^ order.toNat * 2 ^ pageShift := hd ▸ hx
  have hoff : (pageToVirt p - 0xC0100000#32).toNat % 2 ^ pageShift = 0 := by
    rw [pageToVirt, BitVec.add_sub_cancel, BitVec.toNat_shiftLeft, Nat.shiftLeft_eq, pageShift]
    omega
  have hsum : (x - 0xC0100000#32).toNat = (pageToVirt p - 0xC0100000#32).toNat + d := by
    have hparts : x - 0xC0100000#32 = pageToVirt p - 0xC0100000#32 + (x - pageToVirt p) := by bv_omega
    have hq : ((pageToVirt p - 0xC0100000#32).toNat / 2 ^ pageShift + 2 ^ order.toNat) ≤ 2 ^ 20 := by
      rw [virtToPage, BitVec.toNat_ushiftRight, Nat.shiftRight_eq_div_pow] at hfit
      exact_mod_cast hfit
    have hmul := Nat.mul_le_mul_right (2 ^ pageShift) hq
    rw [Nat.add_mul, Nat.div_mul_cancel (Nat.dvd_of_mod_eq_zero hoff)] at hmul
    rw [hparts, BitVec.toNat_add, hd]
    apply Nat.mod_eq_of_lt
    rw [pageShift] at hmul hd'
    omega
  have hpage : virtToPage x = virtToPage (pageToVirt p) + (d / 2 ^ pageShift : ℕ) := by
    rw [virtToPage, virtToPage, BitVec.toNat_ushiftRight, BitVec.toNat_ushiftRight, hsum,
      Nat.shiftRight_eq_div_pow, Nat.shiftRight_eq_div_pow,
      Nat.add_div_of_dvd_right (Nat.dvd_of_mod_eq_zero hoff), Nat.cast_add]
  have hdiv : d / 2 ^ pageShift < 2 ^ order.toNat :=
    Nat.div_lt_of_lt_mul (hd'.trans_eq (Nat.mul_comm _ _))
  have hdiv' : ((d / 2 ^ pageShift : ℕ) : ℤ) < 2 ^ order.toNat := by exact_mod_cast hdiv
  rw [hpage]
  exact ⟨Int.le_add_of_nonneg_right (Int.natCast_nonneg _), Int.add_lt_add_left hdiv' _⟩

/-- A list that can serve a request holds a block that is available. -/
theorem SysInv.available {b : Boot} {σ : Sys} {order : ℤ} {c : ℕ} (h : SysInv b σ)
    (hok : Orderly b σ (.alloc order)) (ho : 0 ≤ order ∧ order ≤ 11)
    (hserve : servingOrder σ.mm order.toNat = some c) : Available b σ order.toNat := by
  obtain ⟨L, hL⟩ := h.lists
  have ⟨hle, hc, _⟩ := servingOrder_eq_some hserve
  have ⟨p, rest, hlist, hnext⟩ := hL.servingOrder_head hserve
  have hp : p ∈ L c := hlist ▸ List.mem_cons_self
  have hpow : (2 : ℤ) ^ order.toNat ≤ 2 ^ c := pow_le_pow_right₀ (by norm_num) hle
  have hrange : b.start ≤ p ∧ p + 2 ^ c ≤ b.stop + 1 := by
    rcases Nat.lt_or_ge c 10 with hlt | hge
    · exact h.base ▸ hL.freeRange c hlt p hp
    · obtain rfl : c = 10 := by omega
      have ⟨hfirst, hfit⟩ := hok ((fromTop_iff ho).mpr hserve)
      obtain rfl : p = b.frontier σ.chunks := Node.page.inj (hnext.symm.trans hfirst)
      simp only [Boot.frontier] at hfit ⊢
      push_cast at hfit
      exact ⟨by omega, by omega⟩
  refine ⟨p, ?_, fun a ha => ?_⟩
  · rintro x ⟨hx₁, hx₂⟩
    simp only at hx₁ hx₂
    exact ⟨by omega, by omega⟩
  · have hdisj := hL.liveDisjoint a.block (List.mem_map_of_mem ha) c hc p hp
    refine (hdisj.mono_right ?_).symm
    exact Set.Ico_subset_Ico_right (by simp only; omega)

theorem normal_allocRight {b : Boot} {σ : Clients} {zeroed : Bool} {order : ℤ} (h : SysInv b σ.sys)
    (hok : MemOk b σ (.alloc false zeroed order)) : AllocRight b σ false zeroed order := by
  have ⟨addr, mm, halloc, hinv⟩ := h.alloc hok
  rw [allocRight_of_eq ((allocPages_normal_flag σ.sys.mm zeroed order).trans halloc)]
  rw [allocPages_normal] at halloc
  constructor
  · intro hcannot
    split at halloc
    · rename_i ho
      cases hserve : servingOrder σ.sys.mm order.toNat with
      | some c => exact absurd (h.available hok ho hserve) hcannot
      | none =>
          obtain ⟨rfl, rfl⟩ : 0 = addr ∧ σ.sys.mm = mm := by
            simpa [allocPagesBuddy, buddyAlloc, hserve] using halloc
          exact ⟨rfl, rfl⟩
    · obtain ⟨rfl, rfl⟩ := Prod.mk.inj (Option.some.inj halloc)
      exact ⟨rfl, rfl⟩
  · intro haddr x hx
    rw [if_neg haddr] at hinv
    have hpages := hinv.live_in_range List.mem_cons_self
    split at halloc
    · obtain ⟨p, rfl⟩ := allocPagesBuddy_addr halloc haddr
      have := b.stop_le
      have hlast : virtToPage (pageToVirt p) + 2 ^ order.toNat - 1 ∈
          (Alloc.block ⟨pageToVirt p, order.toNat⟩).pages := by
        have hpos : (0 : ℤ) < 2 ^ order.toNat := by positivity
        exact ⟨by simp only [Alloc.block]; omega, by simp only [Alloc.block]; omega⟩
      have hfit := (hpages hlast).2
      exact hpages (virtToPage_of_mem hx (by omega))
    · exact absurd (Prod.mk.inj (Option.some.inj halloc)).1.symm haddr

/-! ## The size of the low map -/

section

variable {s t : State} {order : ℕ}

theorem expandLoop_lowmemPages (p : ℤ) (order currOrder size : ℕ) (s : State) :
    (expandLoop p order currOrder size s).lowmemPages = s.lowmemPages := by
  induction currOrder generalizing size s with
  | zero => rfl
  | succ currOrder ih =>
      simp only [expandLoop]
      split
      · exact ih _ _
      · rfl

theorem buddyAlloc_lowmemPages {r : Option ℤ} (h : buddyAlloc s order = some (r, t)) :
    t.lowmemPages = s.lowmemPages := by
  rw [buddyAlloc] at h
  split at h
  · rw [← (Prod.mk.inj (Option.some.inj h)).2]
  · obtain ⟨p, _, hp⟩ := Option.bind_eq_some_iff.mp h
    rw [← (Prod.mk.inj (Option.some.inj hp)).2, expand, expandLoop_lowmemPages]
    split <;> rfl

theorem allocPagesBuddy_lowmemPages {addr : BitVec 32}
    (h : allocPagesBuddy s order = some (addr, t)) : t.lowmemPages = s.lowmemPages := by
  obtain ⟨⟨r, s'⟩, hs', hr⟩ := Option.bind_eq_some_iff.mp h
  rw [← buddyAlloc_lowmemPages hs']
  cases r with
  | none => rw [← (Prod.mk.inj (Option.some.inj hr)).2]
  | some p => rw [← (Prod.mk.inj (Option.some.inj hr)).2]; rfl

theorem buddyFreeLoop_lowmemPages (fuel : ℕ) (s : State) (pageIdx : BitVec 32) (order : ℕ) :
    (buddyFreeLoop fuel s pageIdx order).1.lowmemPages = s.lowmemPages := by
  induction fuel generalizing s pageIdx order with
  | zero => rfl
  | succ fuel ih =>
      simp only [buddyFreeLoop]
      split
      · split
        · rfl
        · split
          · rfl
          · exact ih _ _ _
      · rfl

theorem freePagesLowmem_lowmemPages (s : State) (nr : ℕ) (addr : BitVec 32) :
    (freePagesLowmem s nr addr).lowmemPages = s.lowmemPages := by
  rw [freePagesLowmem]
  induction List.range nr generalizing s addr with
  | nil => rfl
  | cons _ _ ih =>
      refine (ih (freePageLowmem s addr) (addr + 4096#32)).trans ?_
      rw [freePageLowmem]
      split
      · rfl
      · split
        · rfl
        · dsimp only
          split <;> rfl

theorem freePages_lowmemPages {addr : BitVec 32} (h : freePages s order addr = some t) :
    t.lowmemPages = s.lowmemPages := by
  rw [freePages] at h
  split at h
  · rw [← Option.some.inj h, freePagesLowmem_lowmemPages]
  · rw [freePagesBuddy] at h
    dsimp only at h
    split at h
    · rw [← Option.some.inj h]
    · split at h
      · rw [← Option.some.inj h]
      · split at h
        · rw [← Option.some.inj h]
          exact buddyFreeLoop_lowmemPages _ _ _ _
        · exact absurd h (by simp)

theorem sysCall_lowmemPages {σ τ : Sys} {c : Call} (h : σ.call c = some τ) :
    τ.mm.lowmemPages = σ.mm.lowmemPages := by
  cases c with
  | alloc order =>
      obtain ⟨⟨addr, mm⟩, halloc, hτ⟩ := Option.bind_eq_some_iff.mp h
      obtain rfl := Option.some.inj hτ
      rw [allocPages_normal] at halloc
      split at halloc
      · exact allocPagesBuddy_lowmemPages halloc
      · rw [← (Prod.mk.inj (Option.some.inj halloc)).2]
  | free a =>
      rw [Sys.call] at h
      split at h
      · obtain ⟨mm, hfree, hτ⟩ := Option.bind_eq_some_iff.mp h
        obtain rfl := Option.some.inj hτ
        exact freePages_lowmemPages hfree
      · exact absurd h (by simp)

end

/-! ## Runs -/

/-- What holds in all states of these runs. -/
structure ClientsInv (b : Boot) (σ : Clients) : Prop where
  sys : SysInv b σ.sys
  low_le : σ.sys.mm.lowmemPages ≤ 256
  low : ∀ a ∈ σ.low, a.addr < 0xC0100000#32

theorem lowAddr_lt {i : ℕ} (hi : i < 256) : lowAddr i < 0xC0100000#32 := by
  rw [BitVec.lt_def]
  simp only [lowAddr, pageShift, BitVec.toNat_add, BitVec.toNat_shiftLeft, BitVec.toNat_ofNat,
    Nat.shiftLeft_eq]
  omega

/-- One request keeps the invariant. -/
theorem ClientsInv.call {b : Boot} {σ τ : Clients} {c : Request} (h : ClientsInv b σ) (hok : MemOk b σ c)
    (hcall : σ.call c = some τ) : ClientsInv b τ := by
  match c, hok with
  | .alloc true zeroed order, hok =>
      obtain ⟨⟨addr, mm, mem⟩, halloc, hτ⟩ := Option.bind_eq_some_iff.mp hcall
      obtain rfl := Option.some.inj hτ
      have hres := allocPages_lowmem σ.sys.mm zeroed order
      by_cases ho : 0 ≤ order ∧ order ≤ 11
      · have hnr : 0 < 2 ^ order.toNat := by positivity
        rcases allocPagesLowmem_spec (s := σ.sys.mm) hnr with ⟨i, htried, _, _, hfound⟩ | ⟨hnone, _⟩
        · rw [if_pos ho, hfound] at hres
          obtain ⟨rfl, rfl⟩ := allocPagesMem_eq halloc hres
          refine ⟨h.sys.congr (sameLists_modifyRange _ _ _ fun _ => 0) (List.Sublist.refl _), h.low_le,
            ?_⟩
          have hi := lowAddr_lt (htried.1.trans_le h.low_le)
          dsimp only
          split
          · exact h.low
          · exact List.forall_mem_cons.mpr ⟨hi, h.low⟩
        · exact absurd (hok ho) (not_serves hnone)
      · rw [if_neg ho] at hres
        obtain ⟨rfl, rfl⟩ := allocPagesMem_eq halloc hres
        exact ⟨h.sys, h.low_le, h.low⟩
  | .alloc false zeroed order, hok =>
      obtain ⟨⟨_, _, mem⟩, _, hrest⟩ := Option.bind_eq_some_iff.mp hcall
      obtain ⟨sys, hsys, hτ⟩ := Option.bind_eq_some_iff.mp hrest
      obtain rfl := Option.some.inj hτ
      exact ⟨h.sys.call (c := .alloc order) hok hsys, (sysCall_lowmemPages hsys).trans_le h.low_le, h.low⟩
  | .free a, _ =>
      rw [Clients.call] at hcall
      split at hcall
      · rename_i ha
        obtain ⟨mm, hfree, hτ⟩ := Option.bind_eq_some_iff.mp hcall
        obtain rfl := Option.some.inj hτ
        have hlow : mm.lowmemPages ≤ 256 := (freePages_lowmemPages hfree).trans_le h.low_le
        rw [freePages, if_pos (h.low a ha)] at hfree
        obtain rfl := Option.some.inj hfree
        exact ⟨h.sys.congr (sameLists_freePagesLowmem _ _ _) (List.Sublist.refl _), hlow,
          fun a' ha' => h.low a' (List.mem_of_mem_erase ha')⟩
      · obtain ⟨sys, hsys, hτ⟩ := Option.bind_eq_some_iff.mp hcall
        obtain rfl := Option.some.inj hτ
        exact ⟨h.sys.call (c := .free a) trivial hsys, (sysCall_lowmemPages hsys).trans_le h.low_le, h.low⟩
  | .store mem, _ =>
      obtain rfl := Option.some.inj hcall
      exact ⟨h.sys, h.low_le, h.low⟩

theorem Machine.clientsInv (m : Machine) (mem : KernelMem) : ClientsInv m.toBoot (m.clients mem) :=
  ⟨m.sysInv, m.low_le, fun _ ha => absurd ha List.not_mem_nil⟩

/-- **When `alloc_pages` is right.** In runs whose requests for normal memory are orderly and whose
requests for low memory are served, every such request is answered as its caller expects; and no
request for low memory is that is not served. -/
theorem alloc_pages_right {m : Machine} {mem : KernelMem} {σ : Clients}
    (h : Reach Clients.call (MemOk m.toBoot) (m.clients mem) σ) (lowmem zeroed : Bool) (order : ℤ) :
    (MemOk m.toBoot σ (.alloc lowmem zeroed order) → AllocRight m.toBoot σ lowmem zeroed order) ∧
      (lowmem = true → AllocRight m.toBoot σ lowmem zeroed order →
        MemOk m.toBoot σ (.alloc lowmem zeroed order)) := by
  have hinv : ClientsInv m.toBoot σ :=
    h.invariant (m.clientsInv mem) fun _ _ _ hinv hok hcall => hinv.call hok hcall
  cases lowmem with
  | true =>
      have hiff : AllocRight m.toBoot σ true zeroed order ↔
          MemOk m.toBoot σ (.alloc true zeroed order) := lowmem_allocRight_iff hinv.low_le
      exact ⟨hiff.mpr, fun _ => hiff.mp⟩
  | false => exact ⟨normal_allocRight hinv.sys, fun hfalse => absurd hfalse (by decide)⟩

/-- The low map of `bootLow`, and one chunk of 1024 pages of normal memory. -/
def bootMachine : Machine where
  mm := bootLow
  totalMem := 4096#32
  start := 1024
  stop := 2047
  start_nonneg := by decide
  start_le := by decide
  stop_le := by decide
  kernel i h₁ h₂ := by
    have hpos : ¬ i < 0 := by omega
    rw [pageInBuddy, bootLow]
    dsimp only
    rw [if_neg hpos]
    rfl
  low_le := by decide

/-- Eight cleared pages of normal memory, first thing after boot. -/
theorem alloc_pages_right_boot :
    AllocRight bootMachine.toBoot (bootMachine.clients fun _ => 1) false true 3 :=
  (alloc_pages_right .start false true 3).1
    (show Orderly bootMachine.toBoot bootMachine.sys (.alloc 3) by decide +kernel)

/-- One mebibyte of low memory is asked for, cleared: the request cannot be met, but what is returned
is not 0, and the memory from there on is written. -/
theorem lowmem_failure_is_written :
    ¬ ∀ (m : Machine) (mem : KernelMem) (σ : Clients),
      Reach Clients.call (fun _ _ => True) (m.clients mem) σ →
        ∀ (lowmem zeroed : Bool) (order : ℤ), 0 ≤ order → order ≤ 10 →
          AllocRight m.toBoot σ lowmem zeroed order := by
  intro hall
  have hright := hall bootMachine (fun _ => 1) _ .start true true 8 (by decide) (by decide)
  have ⟨addr, mm, mem, hres, hfail, _⟩ := hright
  have hcannot : ¬ CanMeet bootMachine.toBoot (bootMachine.clients fun _ => 1) true 8 := by
    rintro ⟨i, hle, _⟩
    have hlow : i + 256 ≤ 158 := hle
    omega
  have hval : (allocPagesMem (bootMachine.clients fun _ => 1).sys.mm (fun _ => 1) (allocFlag true true)
      8).map (fun r => (r.1, r.2.2 0#32)) = some (-1, 0) := by decide +kernel
  change allocPagesMem (bootMachine.clients fun _ => 1).sys.mm (fun _ => 1) (allocFlag true true) 8 = _
    at hres
  rw [hres] at hval
  rw [(hfail hcannot).1] at hval
  have hfst : (0 : BitVec 32) = -1 := (Prod.mk.inj (Option.some.inj hval)).1
  exact absurd hfst (by decide)

end Shaunos.Mm
