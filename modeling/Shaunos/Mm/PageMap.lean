import Shaunos.Mm.UserCopy

/-!
# Mapping pages

Reference: `Kernel/page.c` (`map_page`), `Kernel/kthread.c` (`vm_insert`), `Kernel/mm.c` (`get_zero_page`),
`Include/kernel/page.h`, `Include/kernel/kthread.h`.

The kernel sees every page frame of the machine at `__PAGE_OFFSET`, and reaches a page table there. What is mapped
is what the processor finds by its walk of both levels. Every page and every page table that a process gets is
written down in its table of 341 entries.

* `mapPage_grows` — a page that is not mapped gets mapped, and nothing else changes;
* `Grows.trans` — pages that are mapped one after the other.
-/

namespace Shaunos.Mm

/-! ## The code -/

def pagePRE : BitVec 32 := 1
def pageRW : BitVec 32 := 2
def pageUSR : BitVec 32 := 4

def vmPGT : BitVec 32 := 0x20
def vmCOMMON : BitVec 32 := 0x400

/-- `PA`. -/
def pa (x : BitVec 32) : BitVec 32 := x - pageOffset

/-- `VA`. -/
def va (x : BitVec 32) : BitVec 32 := x + pageOffset

/-- `vm_t`. -/
structure VmT where
  base : BitVec 32
  len : BitVec 32
  flag : BitVec 32
deriving DecidableEq

/-- What `map_page` works on: the address space of the process, `mm.vm_page`, and the frames that `get_zero_page`
hands out next. A table is the content of a frame. -/
structure PageState where
  as : AddrSpace
  vmPage : List VmT
  free : List (BitVec 20)

/-- The physical address of a frame. -/
def frameAddr (f : BitVec 20) : BitVec 32 := f ++ 0#12

/-- The address at which the kernel sees a frame. -/
def kernelAddr (f : BitVec 20) : BitVec 32 := va (frameAddr f)

/-- `get_zero_page`. -/
def getZeroPage (s : PageState) : BitVec 32 × PageState :=
  match s.free with
  | [] => (0, s)
  | f :: rest =>
      (kernelAddr f, { s with as := { s.as with table := Function.update s.as.table f fun _ => 0 }, free := rest })

/-- The loop of `vm_insert`; there is a `BUG` at its end. -/
def vmInsertIn (e : VmT) : List VmT → Option (List VmT)
  | [] => none
  | x :: vm => if x.base = 0 then some (e :: vm) else (vmInsertIn e vm).map (x :: ·)

/-- `vm_insert`. -/
def vmInsert (base len flag : BitVec 32) (s : PageState) : Option PageState :=
  (vmInsertIn ⟨base, len, flag⟩ s.vmPage).map fun vm => { s with vmPage := vm }

/-- Write an entry of the page directory. -/
def setPgd (i : BitVec 10) (x : BitVec 32) (s : PageState) : PageState :=
  { s with as := { s.as with pgd := Function.update s.as.pgd i x } }

/-- Write a word of a frame. -/
def setPte (f : BitVec 20) (j : BitVec 10) (x : BitVec 32) (s : PageState) : PageState :=
  { s with as := { s.as with table := Function.update s.as.table f (Function.update (s.as.table f) j x) } }

/-- The part of `map_page` that finds the page table, or makes one. A page table that `get_zero_page` does not give
is written at address 0, where the kernel is lost. -/
def pageTable (addr flags : BitVec 32) (s : PageState) : Option (BitVec 32 × PageState) :=
  if (s.as.pgd (pdeIndex addr)).getLsbD pgBitPresent = false then
    let (pde, s) := getZeroPage s
    if pde = 0 then none
    else
      let s := setPgd (pdeIndex addr) (pa pde ||| pageRW ||| flags) s
      (vmInsert pde 4096 vmPGT s).map fun s => (pde, s)
  else some (va (s.as.pgd (pdeIndex addr)) &&& 0xFFFFF000, s)

/-- `map_page`, on the page directory of the process. -/
def mapPage (addr pAddr flags : BitVec 32) (s : PageState) : Option (ℤ × PageState) :=
  if flags.getLsbD pgBitPse = true then some (0, setPgd (pdeIndex addr) (pAddr ||| flags) s)
  else
    (pageTable addr flags s).bind fun (pde, s) =>
      if pAddr &&& 0xFFF ≠ 0 then none
      else if s.as.table (frame (pa pde)) (pteIndex addr) &&& 0xFFFFF000 ≠ 0 then none
      else some (0, setPte (frame (pa pde)) (pteIndex addr) (pAddr ||| flags) s)

/-! ## What is mapped -/

/-- The entries that the processor looks up for an address. -/
def slot (addr : BitVec 32) : BitVec 10 × BitVec 10 := (pdeIndex addr, pteIndex addr)

/-- A page table is entered in the page directory. -/
def AddrSpace.HasTable (as : AddrSpace) (i : BitVec 10) : Prop :=
  (as.pgd i).getLsbD pgBitPresent = true ∧ (as.pgd i).getLsbD pgBitPse = false

/-- The walk of the processor: the entry that maps a page, if it is present. -/
def AddrSpace.mapping (as : AddrSpace) (k : BitVec 10 × BitVec 10) : Option (BitVec 32) :=
  let pde := as.pgd k.1
  if pde.getLsbD pgBitPresent = false then none
  else if pde.getLsbD pgBitPse = true then some pde
  else
    let pte := as.table (frame pde) k.2
    if pte.getLsbD pgBitPresent = true then some pte else none

/-- The entries of `mm.vm_page` that are not used. -/
def PageState.vmFree (s : PageState) : ℕ := s.vmPage.countP (·.base = 0)

/-- A process whose page tables are its own. -/
structure PageState.Ok (s : PageState) : Prop where
  nodup : s.free.Nodup
  /-- The kernel sees the frames that it hands out. -/
  low : ∀ f ∈ s.free, f < 0x40000
  unused : ∀ i, s.as.HasTable i → frame (s.as.pgd i) ∉ s.free
  apart : ∀ i j, s.as.HasTable i → s.as.HasTable j → frame (s.as.pgd i) = frame (s.as.pgd j) → i = j
  /-- An entry that is not present is clear. -/
  clear : ∀ i j, s.as.HasTable i → (s.as.table (frame (s.as.pgd i)) j).getLsbD pgBitPresent = false →
    frame (s.as.table (frame (s.as.pgd i)) j) = 0
  vmMax : s.vmPage.length = 341

/-! ## Addresses and entries -/

section

variable {x y : BitVec 32} {f g : BitVec 20}

theorem frame_or : frame (x ||| y) = frame x ||| frame y := BitVec.extractLsb'_or

theorem frame_frameAddr : frame (frameAddr f) = f := by
  ext i hi
  simp only [frame, frameAddr, BitVec.getElem_extractLsb', BitVec.getLsbD_append]
  simp [hi]

theorem pa_va : pa (va x) = x := by simp [pa, va]

theorem toNat_frame : (frame x).toNat = x.toNat / 4096 := by
  rw [frame, BitVec.extractLsb'_toNat, Nat.shiftRight_eq_div_pow]
  omega

theorem and_page_mask (x : BitVec 32) : x &&& 0xFFFFF000 = frameAddr (frame x) := by
  have hmask : (0xFFFFF000 : BitVec 32) = BitVec.allOnes 20 ++ 0#12 := by decide
  apply BitVec.eq_of_getLsbD_eq
  intro i hi
  simp only [hmask, frame, frameAddr, BitVec.getLsbD_and, BitVec.getLsbD_append, BitVec.getLsbD_extractLsb',
    BitVec.getLsbD_allOnes]
  by_cases hlow : i < 12
  · simp [hlow]
  · have hsub : i - 12 < 20 := by omega
    have hadd : 12 + (i - 12) = i := by omega
    simp [hlow, hsub, hadd]

theorem and_page_mask_eq_zero : x &&& 0xFFFFF000 = 0 ↔ frame x = 0 := by
  rw [and_page_mask]
  constructor
  · intro h
    rw [← frame_frameAddr (f := frame x), h]
    rfl
  · intro h
    rw [h]
    rfl

theorem toNat_frameAddr (f : BitVec 20) : (frameAddr f).toNat = f.toNat * 4096 := by
  rw [frameAddr, BitVec.toNat_append, Nat.shiftLeft_eq]
  simp

theorem getLsbD_frameAddr {i : ℕ} (hi : i < 12) : (frameAddr f).getLsbD i = false := by
  simp only [frameAddr, BitVec.getLsbD_append, hi, if_true, BitVec.getLsbD_zero]

theorem frameAddr_and_offset (f : BitVec 20) : frameAddr f &&& 0xFFF = 0 := by
  have hmask : (0xFFF : BitVec 32) = 0#20 ++ BitVec.allOnes 12 := by decide
  apply BitVec.eq_of_getLsbD_eq
  intro i _
  rw [BitVec.getLsbD_and]
  by_cases hlow : i < 12
  · rw [getLsbD_frameAddr hlow]
    simp
  · simp only [hmask, BitVec.getLsbD_append, hlow, if_false, BitVec.getLsbD_zero, Bool.and_false]
    exact BitVec.getLsbD_zero.symm

/-- The kernel finds the frame that an entry names. -/
theorem frame_table_addr (x : BitVec 32) : frame (pa (va x &&& 0xFFFFF000)) = frame x := by
  rw [and_page_mask]
  apply BitVec.eq_of_toNat_eq
  have hoff : pageOffset.toNat = 0xC0000000 := rfl
  rw [toNat_frame, pa, BitVec.toNat_sub, toNat_frameAddr, toNat_frame, va, BitVec.toNat_add, toNat_frame, hoff]
  omega

theorem frame_pa_kernelAddr (f : BitVec 20) : frame (pa (kernelAddr f)) = f := by
  rw [kernelAddr, pa_va, frame_frameAddr]

theorem kernelAddr_injective : Function.Injective kernelAddr := fun f g h => by
  rw [← frame_pa_kernelAddr f, h, frame_pa_kernelAddr]

theorem kernelAddr_ne_zero (hf : f < 0x40000) : kernelAddr f ≠ 0 := by
  intro h
  have hoff : pageOffset.toNat = 0xC0000000 := rfl
  have hlt : f.toNat < 0x40000 := hf
  have hnat := congrArg BitVec.toNat h
  rw [kernelAddr, va, BitVec.toNat_add, toNat_frameAddr, hoff] at hnat
  have hzero : (0 : BitVec 32).toNat = 0 := rfl
  omega

/-- The flags of a page of 4096 bytes that is present. -/
structure PageFlags (flags : BitVec 32) : Prop where
  low : frame flags = 0
  present : flags.getLsbD pgBitPresent = true
  small : flags.getLsbD pgBitPse = false

theorem PageFlags.frame_entry {flags : BitVec 32} (h : PageFlags flags) : frame (frameAddr f ||| flags) = f := by
  rw [frame_or, frame_frameAddr, h.low]
  simp

theorem PageFlags.present_entry {flags : BitVec 32} (h : PageFlags flags) :
    (frameAddr f ||| flags).getLsbD pgBitPresent = true := by
  rw [BitVec.getLsbD_or, h.present, Bool.or_true]

theorem PageFlags.small_entry {flags : BitVec 32} (h : PageFlags flags) :
    (frameAddr f ||| flags).getLsbD pgBitPse = false := by
  rw [BitVec.getLsbD_or, h.small, getLsbD_frameAddr (by decide)]
  rfl

theorem PageFlags.rw {flags : BitVec 32} (h : PageFlags flags) : PageFlags (pageRW ||| flags) where
  low := by
    rw [frame_or, h.low]
    decide
  present := by rw [BitVec.getLsbD_or, h.present, Bool.or_true]
  small := by
    rw [BitVec.getLsbD_or, h.small]
    decide

end

/-! ## `vm_insert` -/

section

variable {e x : VmT} {vm : List VmT} {s : PageState}

/-- What `vm_insert` does when an entry is left. -/
structure Inserted (e : VmT) (vm vm' : List VmT) : Prop where
  length : vm'.length = vm.length
  free : vm'.countP (·.base = 0) + 1 = vm.countP (·.base = 0)
  used : (vm'.filter (·.base ≠ 0)).Perm (e :: vm.filter (·.base ≠ 0))

theorem vmInsertIn_of_pos (he : e.base ≠ 0) (h : 0 < vm.countP (·.base = 0)) :
    ∃ vm', vmInsertIn e vm = some vm' ∧ Inserted e vm vm' := by
  induction vm with
  | nil => simp at h
  | cons y vm ih =>
      by_cases hy : y.base = 0
      · refine ⟨e :: vm, by rw [vmInsertIn, if_pos hy], rfl, ?_, ?_⟩
        · rw [List.countP_cons_of_neg (by simpa using he), List.countP_cons_of_pos (by simpa using hy)]
        · rw [List.filter_cons_of_pos (by simpa using he), List.filter_cons_of_neg (by simpa using hy)]
      · rw [List.countP_cons_of_neg (by simpa using hy)] at h
        obtain ⟨vm', hvm', hins⟩ := ih h
        refine ⟨y :: vm', by rw [vmInsertIn, if_neg hy, hvm']; rfl, ?_, ?_, ?_⟩
        · rw [List.length_cons, List.length_cons, hins.length]
        · rw [List.countP_cons_of_neg (by simpa using hy), List.countP_cons_of_neg (by simpa using hy), hins.free]
        · rw [List.filter_cons_of_pos (by simpa using hy), List.filter_cons_of_pos (by simpa using hy)]
          exact (hins.used.cons y).trans (List.Perm.swap ..)

theorem vmInsertIn_of_zero (h : vm.countP (·.base = 0) = 0) : vmInsertIn e vm = none := by
  induction vm with
  | nil => rfl
  | cons y vm ih =>
      have hy : y.base ≠ 0 := by
        intro hy
        rw [List.countP_cons_of_pos (by simpa using hy)] at h
        omega
      rw [List.countP_cons_of_neg (by simpa using hy)] at h
      rw [vmInsertIn, if_neg hy, ih h]
      rfl

end

/-! ## What a process gains -/

/-- The frames that are taken, the entries that are written down, the pages that are mapped with their entries, and
the entries of the page directory that get a page table, with the frames of these tables. -/
structure Gain where
  got : List (BitVec 20)
  ents : List VmT
  maps : List (BitVec 32 × BitVec 32)
  dirs : List (BitVec 10)
  tabs : List (BitVec 20)

def Gain.append (g₁ g₂ : Gain) : Gain where
  got := g₁.got ++ g₂.got
  ents := g₁.ents ++ g₂.ents
  maps := g₁.maps ++ g₂.maps
  dirs := g₁.dirs ++ g₂.dirs
  tabs := g₁.tabs ++ g₂.tabs

/-- Map pages one after the other. -/
def mapAll (maps : List (BitVec 32 × BitVec 32)) (m : BitVec 10 × BitVec 10 → Option (BitVec 32)) :
    BitVec 10 × BitVec 10 → Option (BitVec 32) :=
  maps.foldl (fun m p => Function.update m (slot p.1) (some p.2)) m

/-- A frame is a page table. -/
def AddrSpace.IsTable (as : AddrSpace) (f : BitVec 20) : Prop := ∃ i, as.HasTable i ∧ frame (as.pgd i) = f

/-- An entry of the page directory is present. -/
def AddrSpace.Present (as : AddrSpace) (i : BitVec 10) : Prop := (as.pgd i).getLsbD pgBitPresent = true

instance (as : AddrSpace) (i : BitVec 10) : Decidable (as.Present i) := inferInstanceAs (Decidable (_ = _))

/-- From one state to another a process gains just this. -/
structure Grows (s : PageState) (g : Gain) (s' : PageState) : Prop where
  ok : s'.Ok
  perm : (g.got ++ s'.free).Perm s.free
  mapping : s'.as.mapping = mapAll g.maps s.as.mapping
  /-- The other frames are as before. -/
  kept : ∀ f, f ∉ s.free → ¬ s'.as.IsTable f → s'.as.table f = s.as.table f
  zeroed : ∀ f ∈ g.got, ¬ s'.as.IsTable f → s'.as.table f = fun _ => 0
  pgd : ∀ i, s.as.Present i → s'.as.pgd i = s.as.pgd i
  tables : ∀ f, s'.as.IsTable f → s.as.IsTable f ∨ f ∈ g.tabs
  present : ∀ i, s'.as.Present i ↔ s.as.Present i ∨ i ∈ g.dirs
  used : (s'.vmPage.filter (·.base ≠ 0)).Perm (g.ents ++ s.vmPage.filter (·.base ≠ 0))
  vmFree : s'.vmFree + g.ents.length = s.vmFree

section

variable {s s' s₁ s₂ : PageState} {g g₁ g₂ : Gain} {f : BitVec 20} {i : BitVec 10} {flags : BitVec 32}

theorem Grows.isTable (h : Grows s g s') (hf : s.as.IsTable f) : s'.as.IsTable f := by
  obtain ⟨i, hi, rfl⟩ := hf
  have hpgd := h.pgd i hi.1
  exact ⟨i, ⟨hpgd ▸ hi.1, hpgd ▸ hi.2⟩, congrArg frame hpgd⟩

theorem PageState.Ok.not_isTable (h : s.Ok) (hf : f ∈ s.free) : ¬ s.as.IsTable f := by
  rintro ⟨i, hi, rfl⟩
  exact h.unused i hi hf

/-- **One gain after the other.** -/
theorem Grows.trans (hs : s.Ok) (h₁ : Grows s g₁ s₁) (h₂ : Grows s₁ g₂ s₂) : Grows s (g₁.append g₂) s₂ where
  ok := h₂.ok
  perm := by
    show ((g₁.got ++ g₂.got) ++ s₂.free).Perm s.free
    rw [List.append_assoc]
    exact (h₂.perm.append_left g₁.got).trans h₁.perm
  mapping := by
    rw [h₂.mapping, h₁.mapping]
    exact (List.foldl_append ..).symm
  kept f hf htable := by
    have hf₁ : f ∉ s₁.free := fun hmem => hf (h₁.perm.subset (List.mem_append_right _ hmem))
    rw [h₂.kept f hf₁ htable]
    exact h₁.kept f hf fun hold => htable (h₂.isTable hold)
  zeroed f hf htable := by
    rcases List.mem_append.mp hf with hf | hf
    · have hnodup := (h₁.perm.nodup_iff).mpr hs.nodup
      have hf₁ : f ∉ s₁.free := fun hmem => (List.nodup_append'.mp hnodup).2.2 hf hmem
      rw [h₂.kept f hf₁ htable]
      exact h₁.zeroed f hf fun hold => htable (h₂.isTable hold)
    · exact h₂.zeroed f hf htable
  pgd i hi := by
    have hi₁ : s₁.as.Present i := (h₁.present i).mpr (.inl hi)
    rw [h₂.pgd i hi₁, h₁.pgd i hi]
  tables f hf := by
    rcases h₂.tables f hf with hold | hgot
    · rcases h₁.tables f hold with hold | hgot
      · exact .inl hold
      · exact .inr (List.mem_append_left _ hgot)
    · exact .inr (List.mem_append_right _ hgot)
  present i := by
    rw [h₂.present, h₁.present, or_assoc]
    exact or_congr Iff.rfl List.mem_append.symm
  used := by
    show (s₂.vmPage.filter _).Perm ((g₁.ents ++ g₂.ents) ++ _)
    refine (h₂.used.trans (h₁.used.append_left g₂.ents)).trans ?_
    rw [← List.append_assoc]
    exact List.perm_append_comm.append_right _
  vmFree := by
    show s₂.vmFree + (g₁.ents ++ g₂.ents).length = s.vmFree
    rw [List.length_append, ← h₁.vmFree, ← h₂.vmFree]
    omega

/-! ### The steps -/

theorem AddrSpace.mapping_of_hasTable {as : AddrSpace} {k : BitVec 10 × BitVec 10} {x : BitVec 32}
    (h : as.HasTable k.1) (hx : as.table (frame (as.pgd k.1)) k.2 = x) :
    as.mapping k = if x.getLsbD pgBitPresent = true then some x else none := by
  subst hx
  rw [AddrSpace.mapping]
  simp only [h.1, h.2, Bool.true_eq_false, Bool.false_eq_true, if_false]

/-- The walk looks at one entry of the page directory, and of the page table if there is one. -/
theorem AddrSpace.mapping_congr {as as' : AddrSpace} {k : BitVec 10 × BitVec 10} (hpgd : as'.pgd k.1 = as.pgd k.1)
    (htable : as.HasTable k.1 → as'.table (frame (as.pgd k.1)) k.2 = as.table (frame (as.pgd k.1)) k.2) :
    as'.mapping k = as.mapping k := by
  by_cases hk : as.HasTable k.1
  · have hk' : as'.HasTable k.1 := by rwa [AddrSpace.HasTable, hpgd]
    have hword : as'.table (frame (as'.pgd k.1)) k.2 = as.table (frame (as.pgd k.1)) k.2 := by rw [hpgd, htable hk]
    rw [mapping_of_hasTable hk rfl, mapping_of_hasTable hk' hword]
  · rw [AddrSpace.mapping, AddrSpace.mapping, hpgd]
    by_cases hpresent : (as.pgd k.1).getLsbD pgBitPresent = false
    · rw [if_pos hpresent, if_pos hpresent]
    · have hpse : (as.pgd k.1).getLsbD pgBitPse = true := by
        by_contra hpse
        exact hk ⟨by simpa using hpresent, by simpa using hpse⟩
      simp only [hpresent, hpse, if_true]

/-- A page that is taken and not used yet. -/
theorem getZeroPage_grows (hs : s.Ok) {rest : List (BitVec 20)} (hfree : s.free = f :: rest) :
    getZeroPage s = (kernelAddr f, (getZeroPage s).2) ∧ Grows s ⟨[f], [], [], [], []⟩ (getZeroPage s).2 := by
  have hf : ¬ s.as.IsTable f := hs.not_isTable (hfree ▸ List.mem_cons_self)
  have hnodup : f ∉ rest ∧ rest.Nodup := List.nodup_cons.mp (hfree ▸ hs.nodup)
  have hsub : ∀ q ∈ rest, q ∈ s.free := fun q hq => hfree ▸ List.mem_cons_of_mem f hq
  have htable : ∀ q, s.as.IsTable q → Function.update s.as.table f (fun _ => 0) q = s.as.table q :=
    fun q hq => Function.update_of_ne (fun heq : q = f => hf (heq ▸ hq)) ..
  rw [getZeroPage, hfree]
  refine ⟨rfl, ?_, ?_, ?_, ?_, ?_, ?_, ?_, ?_, ?_, ?_⟩
  · refine ⟨hnodup.2, fun q hq => hs.low q (hsub q hq), fun i hi hmem => hs.unused i hi (hsub _ hmem), hs.apart, ?_,
      hs.vmMax⟩
    intro i j hi hpte
    have heq := htable _ ⟨i, hi, rfl⟩
    simp only [heq] at hpte ⊢
    exact hs.clear i j hi hpte
  · rw [hfree]
    exact List.Perm.refl _
  · exact funext fun k => AddrSpace.mapping_congr rfl fun hk => congrFun (htable _ ⟨k.1, hk, rfl⟩) k.2
  · intro q hq _
    have hne : q ≠ f := by
      rintro rfl
      exact hq (hfree ▸ List.mem_cons_self)
    exact Function.update_of_ne hne ..
  · intro q hq _
    obtain rfl := List.mem_singleton.mp hq
    exact Function.update_self ..
  · exact fun i _ => rfl
  · exact fun q hq => .inl hq
  · exact fun i => (or_iff_left List.not_mem_nil).symm
  · exact List.Perm.refl _
  · rfl

/-- An entry that is written down. -/
theorem vmInsert_grows (hs : s.Ok) {base : BitVec 32} (len flag : BitVec 32) (hbase : base ≠ 0) (hvm : 0 < s.vmFree) :
    ∃ s', vmInsert base len flag s = some s' ∧ Grows s ⟨[], [⟨base, len, flag⟩], [], [], []⟩ s' := by
  obtain ⟨vm', hvm', hins⟩ := vmInsertIn_of_pos (e := ⟨base, len, flag⟩) hbase hvm
  refine ⟨{ s with vmPage := vm' }, by rw [vmInsert, hvm']; rfl, ?_⟩
  exact {
    ok := ⟨hs.nodup, hs.low, hs.unused, hs.apart, hs.clear, hins.length.trans hs.vmMax⟩
    perm := List.Perm.refl _
    mapping := rfl
    kept := fun f _ _ => rfl
    zeroed := fun f hf => absurd hf List.not_mem_nil
    pgd := fun i _ => rfl
    tables := fun f hf => .inl hf
    present := fun i => (or_iff_left List.not_mem_nil).symm
    used := hins.used
    vmFree := hins.free }

theorem vmInsert_of_full {base len flag : BitVec 32} (hvm : s.vmFree = 0) : vmInsert base len flag s = none := by
  rw [vmInsert, vmInsertIn_of_zero hvm]
  rfl

/-- The page tables, after one is entered. -/
theorem hasTable_update {as : AddrSpace} {x : BitVec 32} (hi : ¬ as.Present i)
    (hx : x.getLsbD pgBitPresent = true ∧ x.getLsbD pgBitPse = false) (table : BitVec 20 → BitVec 10 → BitVec 32)
    (j : BitVec 10) :
    AddrSpace.HasTable ⟨Function.update as.pgd i x, table⟩ j ↔ j = i ∨ as.HasTable j := by
  by_cases hj : j = i
  · subst hj
    simp only [AddrSpace.HasTable, Function.update_self, true_or, iff_true]
    exact hx
  · simp only [AddrSpace.HasTable, Function.update_of_ne hj, hj, false_or]

/-- A page table that is entered, empty, in the page directory. -/
theorem setPgd_grows (hs : s.Ok) {rest : List (BitVec 20)} (hfree : s.free = f :: rest) (hi : ¬ s.as.Present i)
    {x : BitVec 32} (hx : frame x = f) (hpresent : x.getLsbD pgBitPresent = true ∧ x.getLsbD pgBitPse = false) :
    Grows s ⟨[f], [], [], [i], [f]⟩ (setPgd i x (getZeroPage s).2) := by
  have hf : ¬ s.as.IsTable f := hs.not_isTable (hfree ▸ List.mem_cons_self)
  have hnodup : f ∉ rest ∧ rest.Nodup := List.nodup_cons.mp (hfree ▸ hs.nodup)
  have hsub : ∀ q ∈ rest, q ∈ s.free := fun q hq => hfree ▸ List.mem_cons_of_mem f hq
  -- the state, field by field
  have hs' : setPgd i x (getZeroPage s).2 =
      ⟨⟨Function.update s.as.pgd i x, Function.update s.as.table f fun _ => 0⟩, s.vmPage, rest⟩ := by
    rw [setPgd, getZeroPage, hfree]
  have hhas := hasTable_update hi hpresent (Function.update s.as.table f fun _ => 0)
  have hold : ∀ j, s.as.HasTable j → Function.update s.as.pgd i x j = s.as.pgd j ∧
      Function.update s.as.table f (fun _ => 0) (frame (s.as.pgd j)) = s.as.table (frame (s.as.pgd j)) := by
    intro j hj
    refine ⟨Function.update_of_ne (fun heq : j = i => hi (heq ▸ hj.1)) .., Function.update_of_ne ?_ ..⟩
    exact fun heq => hf ⟨j, hj, heq⟩
  have hisTable : ∀ q, AddrSpace.IsTable ⟨Function.update s.as.pgd i x, Function.update s.as.table f fun _ => 0⟩ q ↔
      s.as.IsTable q ∨ q = f := by
    intro q
    constructor
    · rintro ⟨j, hj, rfl⟩
      rcases (hhas j).mp hj with rfl | hj
      · exact .inr (by simp only [Function.update_self, hx])
      · exact .inl ⟨j, hj, by simp only [(hold j hj).1]⟩
    · rintro (⟨j, hj, rfl⟩ | rfl)
      · exact ⟨j, (hhas j).mpr (.inr hj), by simp only [(hold j hj).1]⟩
      · exact ⟨i, (hhas i).mpr (.inl rfl), by simp only [Function.update_self, hx]⟩
  rw [hs']
  refine ⟨?_, ?_, ?_, ?_, ?_, ?_, ?_, ?_, ?_, ?_⟩
  · refine ⟨hnodup.2, fun q hq => hs.low q (hsub q hq), ?_, ?_, ?_, hs.vmMax⟩
    · intro j hj
      rcases (hhas j).mp hj with rfl | hj
      · simpa only [Function.update_self, hx] using hnodup.1
      · simp only [(hold j hj).1]
        exact fun hmem => hs.unused j hj (hsub _ hmem)
    · intro j k hj hk heq
      rcases (hhas j).mp hj with hji | hj' <;> rcases (hhas k).mp hk with hki | hk'
      · exact hji.trans hki.symm
      · simp only [hji, Function.update_self, hx, (hold k hk').1] at heq
        exact absurd ⟨k, hk', heq.symm⟩ hf
      · simp only [hki, Function.update_self, hx, (hold j hj').1] at heq
        exact absurd ⟨j, hj', heq⟩ hf
      · simp only [(hold j hj').1, (hold k hk').1] at heq
        exact hs.apart j k hj' hk' heq
    · intro j l hj hpte
      rcases (hhas j).mp hj with rfl | hj
      · simp only [Function.update_self, hx]
        rfl
      · simp only [(hold j hj).1, (hold j hj).2] at hpte ⊢
        exact hs.clear j l hj hpte
  · rw [hfree]
    exact List.Perm.refl _
  · funext k
    by_cases hk : k.1 = i
    · have hnone : s.as.mapping k = none := by
        rw [AddrSpace.mapping, if_pos]
        rw [hk]
        exact Bool.eq_false_iff.mpr hi
      have hword : Function.update s.as.table f (fun _ => 0) (frame (Function.update s.as.pgd i x k.1)) k.2 = 0 := by
        rw [hk, Function.update_self, hx, Function.update_self]
      rw [AddrSpace.mapping_of_hasTable ((hhas k.1).mpr (.inl hk)) hword]
      exact hnone.symm
    · exact AddrSpace.mapping_congr (Function.update_of_ne hk ..) fun htable => congrFun (hold k.1 htable).2 k.2
  · intro q hq htable
    have hne : q ≠ f := fun heq => htable ((hisTable q).mpr (.inr heq))
    exact Function.update_of_ne hne ..
  · intro q hq htable
    exact absurd ((hisTable q).mpr (.inr (List.mem_singleton.mp hq))) htable
  · intro j hj
    exact Function.update_of_ne (fun heq : j = i => hi (heq ▸ hj)) ..
  · intro q hq
    exact ((hisTable q).mp hq).imp_right List.mem_singleton.mpr
  · intro j
    by_cases hj : j = i
    · subst hj
      simp only [AddrSpace.Present, Function.update_self, hpresent.1, true_iff]
      exact .inr (List.mem_singleton_self _)
    · simp only [AddrSpace.Present, Function.update_of_ne hj]
      exact (or_iff_left fun hmem => hj (List.mem_singleton.mp hmem)).symm
  · exact List.Perm.refl _
  · rfl

/-- The words of the page tables, after one is written. -/
theorem setPte_table (hs : s.Ok) {addr x : BitVec 32} (htable : s.as.HasTable (pdeIndex addr))
    {k : BitVec 10 × BitVec 10} (hk : s.as.HasTable k.1) :
    (setPte (frame (s.as.pgd (pdeIndex addr))) (pteIndex addr) x s).as.table (frame (s.as.pgd k.1)) k.2 =
      if k = slot addr then x else s.as.table (frame (s.as.pgd k.1)) k.2 := by
  simp only [setPte]
  by_cases hidx : k.1 = pdeIndex addr
  · have hiff : k = slot addr ↔ k.2 = pteIndex addr := by
      rw [Prod.ext_iff]
      exact and_iff_right hidx
    rw [hidx, Function.update_self, Function.update_apply]
    exact if_congr hiff.symm rfl rfl
  · have hne : frame (s.as.pgd k.1) ≠ frame (s.as.pgd (pdeIndex addr)) :=
      fun heq => hidx (hs.apart k.1 _ hk htable heq)
    rw [Function.update_of_ne hne, if_neg]
    rintro rfl
    exact hidx rfl

/-- A page that is entered in a page table. -/
theorem setPte_grows (hs : s.Ok) {addr x : BitVec 32} (htable : s.as.HasTable (pdeIndex addr))
    (hx : x.getLsbD pgBitPresent = true) :
    Grows s ⟨[], [], [(addr, x)], [], []⟩ (setPte (frame (s.as.pgd (pdeIndex addr))) (pteIndex addr) x s) := by
  have hword := fun k => setPte_table (x := x) hs htable (k := k)
  have hpgd : (setPte (frame (s.as.pgd (pdeIndex addr))) (pteIndex addr) x s).as.pgd = s.as.pgd := rfl
  have hrest : ∀ f, ¬ s.as.IsTable f →
      (setPte (frame (s.as.pgd (pdeIndex addr))) (pteIndex addr) x s).as.table f = s.as.table f := by
    intro f hf
    have hne : f ≠ frame (s.as.pgd (pdeIndex addr)) := by
      rintro rfl
      exact hf ⟨pdeIndex addr, htable, rfl⟩
    exact Function.update_of_ne hne ..
  have hfields : (setPte (frame (s.as.pgd (pdeIndex addr))) (pteIndex addr) x s).vmPage = s.vmPage ∧
    (setPte (frame (s.as.pgd (pdeIndex addr))) (pteIndex addr) x s).free = s.free := ⟨rfl, rfl⟩
  generalize setPte (frame (s.as.pgd (pdeIndex addr))) (pteIndex addr) x s = s' at *
  obtain ⟨⟨pgd, table⟩, vmPage, free⟩ := s'
  obtain ⟨rfl, rfl⟩ := hfields
  obtain rfl : pgd = s.as.pgd := hpgd
  refine ⟨?_, List.Perm.refl _, ?_, fun f _ hf => hrest f hf, fun f hf => absurd hf List.not_mem_nil, fun i _ => rfl,
    fun f hf => .inl hf, fun i => (or_iff_left List.not_mem_nil).symm, List.Perm.refl _, rfl⟩
  · refine ⟨hs.nodup, hs.low, hs.unused, hs.apart, fun i j hi hpte => ?_, hs.vmMax⟩
    have heq := hword (i, j) hi
    dsimp only at heq hpte ⊢
    rw [heq] at hpte ⊢
    split_ifs at hpte ⊢
    · exact absurd (hpte.symm.trans hx) (by decide)
    · exact hs.clear i j hi hpte
  · funext k
    show _ = Function.update s.as.mapping (slot addr) (some x) k
    by_cases hk : s.as.HasTable k.1
    · have hk' : AddrSpace.HasTable ⟨s.as.pgd, table⟩ k.1 := hk
      rw [AddrSpace.mapping_of_hasTable hk' (hword k hk)]
      by_cases hslot : k = slot addr
      · rw [if_pos hslot, if_pos hx, hslot, Function.update_self]
      · rw [if_neg hslot, Function.update_of_ne hslot, AddrSpace.mapping_of_hasTable hk rfl]
    · have hslot : k ≠ slot addr := by
        rintro rfl
        exact hk htable
      rw [Function.update_of_ne hslot]
      exact AddrSpace.mapping_congr rfl fun hk' => absurd hk' hk

/-! ### `map_page` -/

/-- The frames and entries that a page table for an address takes, if there is none. -/
def PageState.need (s : PageState) (addr : BitVec 32) : ℕ := if s.as.Present (pdeIndex addr) then 0 else 1

/-- The entry for a page table. -/
def tableEnt (f : BitVec 20) : VmT := ⟨kernelAddr f, 4096, vmPGT⟩

/-- What a page table adds. -/
def tableGain (addr : BitVec 32) (f : Option (BitVec 20)) : Gain where
  got := f.toList
  ents := f.toList.map tableEnt
  maps := []
  dirs := f.toList.map fun _ => pdeIndex addr
  tabs := f.toList

/-- A page is not mapped. -/
def PageState.Unmapped (s : PageState) (addr : BitVec 32) : Prop := s.as.mapping (slot addr) = none

theorem AddrSpace.present_iff {as : AddrSpace} : as.Present i ↔ ¬ (as.pgd i).getLsbD pgBitPresent = false := by
  rw [AddrSpace.Present, Bool.not_eq_false]

theorem PageState.Unmapped.hasTable {addr : BitVec 32} (h : s.Unmapped addr)
    (hpresent : s.as.Present (pdeIndex addr)) : s.as.HasTable (pdeIndex addr) := by
  refine ⟨hpresent, ?_⟩
  by_contra hpse
  rw [PageState.Unmapped, AddrSpace.mapping] at h
  simp only [slot, AddrSpace.present_iff.mp hpresent, Bool.not_eq_false _ ▸ hpse, if_true] at h
  cases h

theorem Grows.refl (hs : s.Ok) : Grows s ⟨[], [], [], [], []⟩ s where
  ok := hs
  perm := List.Perm.refl _
  mapping := rfl
  kept _ _ _ := rfl
  zeroed _ hf := absurd hf List.not_mem_nil
  pgd _ _ := rfl
  tables _ hf := .inl hf
  present _ := (or_iff_left List.not_mem_nil).symm
  used := List.Perm.refl _
  vmFree := rfl

/-- `map_page` finds or makes a page table, if there is a frame and an entry for it. -/
theorem pageTable_grows (hs : s.Ok) (hflags : PageFlags flags) {addr : BitVec 32} (hmap : s.Unmapped addr)
    (hfree : s.need addr ≤ s.free.length) (hvm : s.need addr ≤ s.vmFree) :
    ∃ pde s' f, pageTable addr flags s = some (pde, s') ∧ Grows s (tableGain addr f) s' ∧
      f.toList.length = s.need addr ∧ s'.as.HasTable (pdeIndex addr) ∧
      frame (pa pde) = frame (s'.as.pgd (pdeIndex addr)) := by
  by_cases hpresent : s.as.Present (pdeIndex addr)
  · have hbit := AddrSpace.present_iff.mp hpresent
    refine ⟨_, s, none, by rw [pageTable, if_neg hbit], Grows.refl hs, ?_, hmap.hasTable hpresent, frame_table_addr _⟩
    rw [PageState.need, if_pos hpresent]
    rfl
  · rw [PageState.need, if_neg hpresent] at hfree hvm ⊢
    obtain ⟨f, rest, hcons⟩ := List.exists_cons_of_length_pos hfree
    have hlow := hs.low f (hcons ▸ List.mem_cons_self)
    have hbit : (s.as.pgd (pdeIndex addr)).getLsbD pgBitPresent = false := by
      by_contra hbit
      exact hpresent (AddrSpace.present_iff.mpr hbit)
    -- the entry names the new frame, and is writable
    have hentry : pa (kernelAddr f) ||| pageRW ||| flags = frameAddr f ||| (pageRW ||| flags) := by
      rw [kernelAddr, pa_va, BitVec.or_assoc]
    have hset := setPgd_grows hs hcons hpresent (x := frameAddr f ||| (pageRW ||| flags)) hflags.rw.frame_entry
      ⟨hflags.rw.present_entry, hflags.rw.small_entry⟩
    have hvm' := hset.vmFree
    obtain ⟨s', hins, hgrow⟩ := vmInsert_grows hset.ok 4096 vmPGT (kernelAddr_ne_zero hlow)
      (show 0 < _ by rw [List.length_nil, add_zero] at hvm'; omega)
    have hall := hset.trans hs hgrow
    have hpgd : s'.as.pgd (pdeIndex addr) = frameAddr f ||| (pageRW ||| flags) := by
      rw [hgrow.pgd _ ((hset.present _).mpr (.inr (List.mem_singleton_self _)))]
      exact Function.update_self ..
    refine ⟨kernelAddr f, s', some f, ?_, hall, rfl, ?_, ?_⟩
    · rw [pageTable, if_pos hbit, (getZeroPage_grows hs hcons).1]
      simp only [kernelAddr_ne_zero hlow, if_false, hentry, hins, Option.map_some]
    · rw [AddrSpace.HasTable, hpgd]
      exact ⟨hflags.rw.present_entry, hflags.rw.small_entry⟩
    · rw [frame_pa_kernelAddr, hpgd, hflags.rw.frame_entry]

/-- `map_page` does not come back if there is no frame or no entry for a page table. -/
theorem pageTable_of_few {addr : BitVec 32} (hflags : PageFlags flags) (hs : s.Ok)
    (h : s.free.length < s.need addr ∨ s.vmFree < s.need addr) : pageTable addr flags s = none := by
  have hpresent : ¬ s.as.Present (pdeIndex addr) := by
    intro hpresent
    rw [PageState.need, if_pos hpresent] at h
    omega
  have hbit : (s.as.pgd (pdeIndex addr)).getLsbD pgBitPresent = false := by
    by_contra hbit
    exact hpresent (AddrSpace.present_iff.mpr hbit)
  rw [PageState.need, if_neg hpresent] at h
  rw [pageTable, if_pos hbit]
  cases hfree : s.free with
  | nil =>
      rw [getZeroPage, hfree]
      rfl
  | cons f rest =>
      rw [hfree, List.length_cons] at h
      have hlow := hs.low f (hfree ▸ List.mem_cons_self)
      have hset := setPgd_grows hs hfree hpresent (x := frameAddr f ||| (pageRW ||| flags)) hflags.rw.frame_entry
        ⟨hflags.rw.present_entry, hflags.rw.small_entry⟩
      have hvm' := hset.vmFree
      rw [List.length_nil, add_zero] at hvm'
      rw [(getZeroPage_grows hs hfree).1]
      have hentry : pa (kernelAddr f) ||| pageRW ||| flags = frameAddr f ||| (pageRW ||| flags) := by
        rw [kernelAddr, pa_va, BitVec.or_assoc]
      simp only [kernelAddr_ne_zero hlow, if_false, hentry]
      rw [vmInsert_of_full (by omega)]
      rfl

/-- **A page that is not mapped gets mapped**, if there is a page table for it or one can be made. -/
theorem mapPage_grows (hs : s.Ok) (hflags : PageFlags flags) {addr : BitVec 32} (hmap : s.Unmapped addr)
    (hfree : s.need addr ≤ s.free.length) (hvm : s.need addr ≤ s.vmFree) (p : BitVec 20) :
    ∃ s' f, mapPage addr (frameAddr p) flags s = some (0, s') ∧
      Grows s ((tableGain addr f).append ⟨[], [], [(addr, frameAddr p ||| flags)], [], []⟩) s' ∧
      f.toList.length = s.need addr := by
  obtain ⟨pde, s₁, f, heq, hgrow, hlen, htable, hframe⟩ := pageTable_grows hs hflags hmap hfree hvm
  have hpte := setPte_grows hgrow.ok htable (x := frameAddr p ||| flags) hflags.present_entry
  have hmap₁ : s₁.as.mapping (slot addr) = none := by
    rw [hgrow.mapping]
    exact hmap
  have hclear : s₁.as.table (frame (s₁.as.pgd (pdeIndex addr))) (pteIndex addr) &&& 0xFFFFF000 = 0 := by
    obtain ⟨word, hword⟩ : ∃ word, s₁.as.table (frame (s₁.as.pgd (pdeIndex addr))) (pteIndex addr) = word := ⟨_, rfl⟩
    rw [and_page_mask_eq_zero]
    refine hgrow.ok.clear _ _ htable ?_
    rw [hword]
    by_contra hbit
    have hsome := AddrSpace.mapping_of_hasTable (k := slot addr) htable hword
    rw [hmap₁, if_pos (Bool.eq_true_of_not_eq_false hbit)] at hsome
    cases hsome
  refine ⟨_, f, ?_, hgrow.trans hs hpte, hlen⟩
  rw [mapPage, if_neg (by rw [hflags.small]; decide), heq, Option.bind_some]
  simp only [frameAddr_and_offset, hframe, hclear, ne_eq, not_true_eq_false, if_false]

theorem mapPage_of_few {addr pAddr : BitVec 32} (hflags : PageFlags flags) (hs : s.Ok)
    (h : s.free.length < s.need addr ∨ s.vmFree < s.need addr) : mapPage addr pAddr flags s = none := by
  rw [mapPage, if_neg (by rw [hflags.small]; decide), pageTable_of_few hflags hs h]
  rfl

end

end Shaunos.Mm
