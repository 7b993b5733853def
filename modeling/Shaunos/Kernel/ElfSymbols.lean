import Mathlib
import Shaunos.Common.Chain

/-!
# The search for a symbol

Reference: `Kernel/elf.c` (`elf_hash`, `elf_hash_gnu`, `sym_match`, `elf_lookup_hash`, `elf_lookup_hash_gnu`,
`elf_find_hash`).

`elf_find_hash` looks through the modules for a symbol of a name, each time in one bucket of the hash table. It ends
at the first symbol that `sym_match` takes, and looks at its binding only then: a local symbol ends the search, too.
`sym_match` also takes symbols without a type. The hash is computed from bytes of type `char`, so that of a byte from
128 on is not the one of the ABI. And when no module is searched, `sym` has never been set.

* `elfHash_eq_abiHash` — the two hashes agree for names of bytes below 128;
* `elfLookupHash_eq` — what is found in one module;
* `findRight_iff` — when the search finds what it is to find.
-/

namespace Shaunos.Elf

/-! ## The code -/

structure Elf32Sym where
  stName : BitVec 32
  stValue : BitVec 32
  stInfo : BitVec 8
  stShndx : BitVec 16

def stbGLOBAL : BitVec 8 := 1
def stbWEAK : BitVec 8 := 2
def sttNOTYPE : BitVec 8 := 0
def sttFUNC : BitVec 8 := 2
def sttCOMMON : BitVec 8 := 5
def r386COPY : ℤ := 5

/-- `ELF_MOD_TYPE_EXE`. -/
def elfModTypeExe : BitVec 32 := 1

/-- `ELF32_ST_BIND`. -/
def Elf32Sym.bind (sym : Elf32Sym) : BitVec 8 := sym.stInfo >>> 4

/-- `ELF32_ST_TYPE`. -/
def Elf32Sym.type (sym : Elf32Sym) : BitVec 8 := sym.stInfo &&& 0xF

/-- `struct elf_module`, as far as the search goes. A string is given by its bytes, without the null byte. -/
structure SymModule where
  type : BitVec 32
  nbucket : BitVec 32
  nchain : BitVec 32
  elfBuckets : BitVec 32 → BitVec 32
  chains : BitVec 32 → BitVec 32
  /-- `dynamic[DT_SYMTAB]`. -/
  symtab : BitVec 32 → Elf32Sym
  /-- The strings that start in `dynamic[DT_STRTAB]`. -/
  strtab : BitVec 32 → List (BitVec 8)

def elfHash (name : List (BitVec 8)) : BitVec 32 :=
  name.foldl (fun hash p =>
    let hash := (hash <<< 4) + p.signExtend 32
    let tmp := hash &&& 0xf0000000
    let hash := hash ^^^ tmp
    hash ^^^ (tmp >>> 24)) 0

def elfHashGnu (name : List (BitVec 8)) : BitVec 32 :=
  name.foldl (fun h c => h * 33 + c.signExtend 32) 5381

/-- Whether `sym_match` takes a symbol. -/
def SymMatch (sym : Elf32Sym) (strtab : BitVec 32 → List (BitVec 8)) (name : List (BitVec 8)) : Prop :=
  sym.stValue ≠ 0 ∧ sym.stShndx ≠ 0 ∧ ¬ (sttFUNC < sym.type ∧ sym.type ≠ sttCOMMON) ∧ strtab sym.stName = name

instance decidableSymMatch (sym : Elf32Sym) (strtab : BitVec 32 → List (BitVec 8)) (name : List (BitVec 8)) :
    Decidable (SymMatch sym strtab name) :=
  inferInstanceAs (Decidable (_ ∧ _ ∧ _ ∧ _))

/-- The loop of `elf_lookup_hash`, from `symidx` on. It is over when the chain is. -/
def lookupChain (em : SymModule) (name : List (BitVec 8)) : ℕ → (symidx : BitVec 32) → Option (Option Elf32Sym)
  | 0, _ => none
  | fuel + 1, symidx =>
      if symidx = 0 then some none
      else if SymMatch (em.symtab symidx) em.strtab name then some (some (em.symtab symidx))
      else lookupChain em name fuel (em.chains symidx)

/-- `elf_lookup_hash`. A chain that ends has at most `nchain` symbols. -/
def elfLookupHash (em : SymModule) (hashnum : BitVec 32) (name : List (BitVec 8)) : Option (Option Elf32Sym) :=
  lookupChain em name (em.nchain.toNat + 1) (em.elfBuckets (hashnum % em.nbucket))

def elfLookupHashGnu (_em : SymModule) (_hashnum : BitVec 32) (_name : List (BitVec 8)) : Option Elf32Sym := none

/-- The loop of `elf_find_hash`. -/
def findLoop (name : List (BitVec 8)) (relocType : ℤ) : List SymModule → (sym : Option Elf32Sym) →
    Option (Option Elf32Sym)
  | [], sym => some sym
  | em0 :: next, sym =>
      if em0.nbucket = 0 then findLoop name relocType next sym
      else if relocType = r386COPY ∧ em0.type = elfModTypeExe then findLoop name relocType next sym
      else
        match elfLookupHashGnu em0 (elfHashGnu name) name with
        | some sym => some (some sym)
        | none =>
            (elfLookupHash em0 (elfHash name) name).bind fun
              | some sym => some (some sym)
              | none => findLoop name relocType next none

/-- What `elf_find_hash` returns for the symbol that the loop ends with. -/
def symValue : Option Elf32Sym → BitVec 32
  | some sym => if sym.bind = stbWEAK ∨ sym.bind = stbGLOBAL then sym.stValue else 0
  | none => 0

/-- `elf_find_hash`, where `sym` starts with what is on the stack. -/
def elfFindHash (name : List (BitVec 8)) (em : List SymModule) (relocType : ℤ) (sym : Option Elf32Sym) :
    Option (BitVec 32) :=
  (findLoop name relocType em sym).map symValue

/-! ## Hash tables -/

/-- The hash of the System V ABI. -/
def abiHash (name : List (BitVec 8)) : BitVec 32 :=
  name.foldl (fun h c =>
    let h := (h <<< 4) + c.setWidth 32
    let g := h &&& 0xf0000000
    (if g ≠ 0 then h ^^^ (g >>> 24) else h) &&& ~~~g) 0

namespace SymModule

/-- The symbol at an index, where 0 stands for the end of a chain. -/
def entry (symidx : BitVec 32) : Option (BitVec 32) := if symidx = 0 then none else some symidx

def nameAt (em : SymModule) (symidx : BitVec 32) : List (BitVec 8) := em.strtab (em.symtab symidx).stName

/-- The bucket of a hash. -/
def bucket (em : SymModule) (hash : BitVec 32) : BitVec 32 := em.elfBuckets (hash % em.nbucket)

/-- The symbol at an index is a global or weak function, object or common symbol of a name, with a value. -/
def Defines (em : SymModule) (name : List (BitVec 8)) (symidx : BitVec 32) : Prop :=
  symidx ≠ 0 ∧ symidx < em.nchain ∧ SymMatch (em.symtab symidx) em.strtab name ∧
    (em.symtab symidx).type ≠ sttNOTYPE ∧
    ((em.symtab symidx).bind = stbWEAK ∨ (em.symtab symidx).bind = stbGLOBAL)

instance decidableDefines (em : SymModule) (name : List (BitVec 8)) (symidx : BitVec 32) :
    Decidable (em.Defines name symidx) :=
  inferInstanceAs (Decidable (_ ∧ _ ∧ _ ∧ _ ∧ _))

/-- The search looks into the module. -/
def Searched (em : SymModule) (relocType : ℤ) : Prop :=
  em.nbucket ≠ 0 ∧ ¬ (relocType = r386COPY ∧ em.type = elfModTypeExe)

instance decidableSearched (em : SymModule) (relocType : ℤ) : Decidable (em.Searched relocType) :=
  inferInstanceAs (Decidable (_ ∧ _))

end SymModule

/-- A module with a hash table as in the ABI: the chain of each bucket ends, and has the symbols of which the hash
belongs to the bucket. A module without a hash table has no bucket. -/
structure AbiModule extends SymModule where
  /-- The indices in the chain of the bucket of a hash. -/
  chain : BitVec 32 → List (BitVec 32)
  chain_ends (hash : BitVec 32) : nbucket ≠ 0 →
    Chain (fun i => SymModule.entry (chains i)) (SymModule.entry (toSymModule.bucket hash)) (chain hash)
  mem_chain (hash : BitVec 32) (symidx : BitVec 32) : nbucket ≠ 0 →
    (symidx ∈ chain hash ↔ symidx ≠ 0 ∧ symidx < nchain ∧
      abiHash (toSymModule.nameAt symidx) % nbucket = hash % nbucket)

namespace AbiModule

/-- The symbols of a name that `sym_match` takes, in the order of their chain. -/
def named (em : AbiModule) (name : List (BitVec 8)) : List Elf32Sym :=
  ((em.chain (abiHash name)).map em.symtab).filter fun sym => SymMatch sym em.strtab name

/-- The hash that the code computes belongs to the same bucket as the one of the ABI. -/
def Agrees (em : AbiModule) (name : List (BitVec 8)) : Prop :=
  elfHash name % em.nbucket = abiHash name % em.nbucket

instance decidableAgrees (em : AbiModule) (name : List (BitVec 8)) : Decidable (em.Agrees name) :=
  inferInstanceAs (Decidable (_ = _))

end AbiModule

/-- A symbol is global or weak. -/
abbrev Elf32Sym.Bound (sym : Elf32Sym) : Prop := sym.bind = stbWEAK ∨ sym.bind = stbGLOBAL

/-! ## What is to hold -/

/-- What is to be found in the modules that are searched: the value of the first one that defines the name, or nothing. -/
def FindSpec (name : List (BitVec 8)) : List AbiModule → BitVec 32 → Prop
  | [], value => value = 0
  | em :: next, value =>
      (∃ symidx, em.Defines name symidx ∧ value = (em.symtab symidx).stValue) ∨
        ((∀ symidx, ¬ em.Defines name symidx) ∧ FindSpec name next value)

/-- The modules of the list that are searched. -/
def searched (relocType : ℤ) (ems : List AbiModule) : List AbiModule :=
  ems.filter fun em => em.Searched relocType

/-- Whatever is on the stack, `elf_find_hash` returns what is to be found. -/
def FindRight (name : List (BitVec 8)) (relocType : ℤ) (ems : List AbiModule) : Prop :=
  ∀ sym, ∃ value, elfFindHash name (ems.map AbiModule.toSymModule) relocType sym = some value ∧
    FindSpec name (searched relocType ems) value

/-- The first symbol of the name that `sym_match` takes, in the modules where the hash leads to the right bucket. -/
def firstNamed (name : List (BitVec 8)) : List AbiModule → Option Elf32Sym
  | [] => none
  | em :: next => if em.Agrees name then (em.named name).head?.or (firstNamed name next) else firstNamed name next

/-- The condition on the modules that are searched. Where two symbols are told apart, their values may happen to be
the same. -/
def NamesFit (name : List (BitVec 8)) : List AbiModule → Prop
  | [] => True
  | em :: next =>
      if em.Agrees name then
        match em.named name with
        | [] => NamesFit name next
        | sym :: _ =>
            if sym.Bound then sym.type ≠ sttNOTYPE ∨ FindSpec name (em :: next) sym.stValue
            else ∀ em' ∈ em :: next, ∀ symidx, ¬ em'.Defines name symidx
      else
        ((∀ symidx, ¬ em.Defines name symidx) ∧ NamesFit name next) ∨
          ∃ sym ∈ firstNamed name next, sym.Bound ∧
            ∃ symidx, em.Defines name symidx ∧ (em.symtab symidx).stValue = sym.stValue

/-! ## The hash -/

theorem abi_step (h : BitVec 32) :
    (h ^^^ (h &&& 0xf0000000)) ^^^ ((h &&& 0xf0000000) >>> 24) =
      (if h &&& 0xf0000000 ≠ 0 then h ^^^ ((h &&& 0xf0000000) >>> 24) else h) &&& ~~~(h &&& 0xf0000000) := by
  have hif : (if h &&& 0xf0000000 ≠ 0 then h ^^^ ((h &&& 0xf0000000) >>> 24) else h) =
      h ^^^ ((h &&& 0xf0000000) >>> 24) := by
    have hzero : (0 : BitVec 32) >>> 24 = 0 := rfl
    split_ifs with hg
    · rfl
    · rw [not_not.mp hg, hzero]
      exact BitVec.xor_zero.symm
  rw [hif]
  ext i hi
  simp only [BitVec.getElem_xor, BitVec.getElem_and, BitVec.getElem_not, BitVec.getElem_ushiftRight,
    BitVec.getLsbD_and]
  interval_cases i <;> simp

/-- For bytes below 128 the hash is that of the ABI. -/
theorem elfHash_eq_abiHash {name : List (BitVec 8)} (h : ∀ b ∈ name, b < 128) : elfHash name = abiHash name := by
  rw [elfHash, abiHash]
  refine List.foldl_ext _ _ _ fun hash b hb => ?_
  have hext : b.signExtend 32 = b.setWidth 32 := by
    refine BitVec.signExtend_eq_setWidth_of_msb_false ?_
    rw [BitVec.msb_eq_false_iff_two_mul_lt]
    have hlt := h b hb
    rw [BitVec.lt_def] at hlt
    change b.toNat < 128 at hlt
    omega
  dsimp only
  rw [hext]
  exact abi_step _

/-! ## One module -/

section

variable {name : List (BitVec 8)} {em : AbiModule} {sym : Elf32Sym} {symidx : BitVec 32}

theorem lookupChain_eq {em : SymModule} {p : BitVec 32} {l : List (BitVec 32)} {fuel : ℕ}
    (hc : Chain (fun i => SymModule.entry (em.chains i)) (SymModule.entry p) l) (hfuel : l.length < fuel) :
    lookupChain em name fuel p =
      some ((l.map em.symtab).filter fun sym => SymMatch sym em.strtab name).head? := by
  induction l generalizing p fuel with
  | nil =>
      obtain ⟨fuel, rfl⟩ : ∃ n, fuel = n + 1 := ⟨fuel - 1, by rw [List.length_nil] at hfuel; omega⟩
      have hp : p = 0 := by
        by_contra hne
        rw [chain_nil, SymModule.entry, if_neg hne] at hc
        cases hc
      rw [lookupChain, if_pos hp]
      rfl
  | cons i l ih =>
      obtain ⟨fuel, rfl⟩ : ∃ n, fuel = n + 1 := ⟨fuel - 1, by omega⟩
      have ⟨hi, hrest⟩ := chain_cons.mp hc
      have hp : p ≠ 0 := by
        rintro rfl
        rw [SymModule.entry, if_pos rfl] at hi
        cases hi
      obtain rfl : p = i := by
        rw [SymModule.entry, if_neg hp] at hi
        exact Option.some.inj hi
      rw [lookupChain, if_neg hp, List.map_cons]
      by_cases hm : SymMatch (em.symtab p) em.strtab name
      · rw [if_pos hm, List.filter_cons_of_pos (by simpa using hm)]
        rfl
      · rw [if_neg hm, List.filter_cons_of_neg (by simpa using hm)]
        exact ih hrest (Nat.lt_of_succ_lt_succ hfuel)

namespace AbiModule

/-- A chain does not have more symbols than the table. -/
theorem length_chain_le (em : AbiModule) (hash : BitVec 32) (hne : em.nbucket ≠ 0) :
    (em.chain hash).length ≤ em.nchain.toNat := by
  have hnodup : ((em.chain hash).map BitVec.toNat).Nodup :=
    (em.chain_ends hash hne).nodup.map fun _ _ => BitVec.eq_of_toNat_eq
  have hsub : ((em.chain hash).map BitVec.toNat) ⊆ List.range em.nchain.toNat := by
    intro n hn
    obtain ⟨i, hi, rfl⟩ := List.mem_map.mp hn
    exact List.mem_range.mpr ((em.mem_chain hash i hne).mp hi).2.1
  have hlen := (hnodup.subperm hsub).length_le
  rwa [List.length_map, List.length_range] at hlen

/-- What the walk over the bucket of a hash finds. -/
theorem elfLookupHash_chain (em : AbiModule) (hash : BitVec 32) (name : List (BitVec 8)) (hne : em.nbucket ≠ 0) :
    elfLookupHash em.toSymModule hash name =
      some (((em.chain hash).map em.symtab).filter fun sym => SymMatch sym em.strtab name).head? :=
  lookupChain_eq (em.chain_ends hash hne) (Nat.lt_succ_of_le (em.length_chain_le hash hne))

theorem mem_named (hne : em.nbucket ≠ 0) :
    sym ∈ em.named name ↔
      ∃ symidx, symidx ≠ 0 ∧ symidx < em.nchain ∧ SymMatch (em.symtab symidx) em.strtab name ∧ em.symtab symidx = sym := by
  rw [named, List.mem_filter, List.mem_map, decide_eq_true_iff]
  constructor
  · rintro ⟨⟨i, hi, rfl⟩, hm⟩
    have ⟨hi0, hlt, _⟩ := (em.mem_chain _ i hne).mp hi
    exact ⟨i, hi0, hlt, hm, rfl⟩
  · rintro ⟨i, hi0, hlt, hm, rfl⟩
    have hname : em.nameAt i = name := hm.2.2.2
    exact ⟨⟨i, (em.mem_chain _ i hne).mpr ⟨hi0, hlt, by rw [hname]⟩, rfl⟩, hm⟩

/-- What is found in one module. In another bucket there is no symbol of the name. -/
theorem elfLookupHash_eq (em : AbiModule) (name : List (BitVec 8)) (hne : em.nbucket ≠ 0) :
    elfLookupHash em.toSymModule (elfHash name) name =
      some (if em.Agrees name then (em.named name).head? else none) := by
  by_cases hagrees : em.Agrees name
  · have hsame : elfLookupHash em.toSymModule (elfHash name) name =
        elfLookupHash em.toSymModule (abiHash name) name := by
      rw [elfLookupHash, elfLookupHash, hagrees]
    rw [if_pos hagrees, hsame, elfLookupHash_chain em _ name hne]
    rfl
  · rw [if_neg hagrees, elfLookupHash_chain em _ name hne]
    congr 1
    rw [List.head?_eq_none_iff, List.filter_eq_nil_iff]
    intro sym hsym
    obtain ⟨i, hi, rfl⟩ := List.mem_map.mp hsym
    have ⟨_, _, hhash⟩ := (em.mem_chain _ i hne).mp hi
    rw [decide_eq_true_iff]
    rintro ⟨_, _, _, hname⟩
    have hat : em.nameAt i = name := hname
    rw [hat] at hhash
    exact hagrees hhash.symm

/-- A symbol that defines the name is one of those that `sym_match` takes. -/
theorem defines_of_mem (hne : em.nbucket ≠ 0) (hsym : sym ∈ em.named name) (hbound : sym.Bound)
    (htype : sym.type ≠ sttNOTYPE) : ∃ symidx, em.Defines name symidx ∧ sym.stValue = (em.symtab symidx).stValue := by
  obtain ⟨i, hi0, hlt, hm, rfl⟩ := (mem_named hne).mp hsym
  exact ⟨i, ⟨hi0, hlt, hm, htype, hbound⟩, rfl⟩

theorem not_defines_of_nil (hne : em.nbucket ≠ 0) (hnil : em.named name = []) (symidx : BitVec 32) :
    ¬ em.Defines name symidx := by
  rintro ⟨hi0, hlt, hm, _, _⟩
  have hmem : em.symtab symidx ∈ em.named name := (mem_named hne).mpr ⟨symidx, hi0, hlt, hm, rfl⟩
  rw [hnil] at hmem
  exact List.not_mem_nil hmem

theorem value_ne_zero (h : em.Defines name symidx) : (em.symtab symidx).stValue ≠ 0 := h.2.2.1.1

theorem value_ne_zero_of_mem (hne : em.nbucket ≠ 0) (hsym : sym ∈ em.named name) : sym.stValue ≠ 0 := by
  obtain ⟨_, _, _, hm, rfl⟩ := (mem_named hne).mp hsym
  exact hm.1

end AbiModule

end

/-! ## All modules -/

section

variable {name : List (BitVec 8)} {relocType : ℤ} {ems : List AbiModule} {value : BitVec 32}

theorem findSpec_cons_of_none {em : AbiModule} (h : ∀ symidx, ¬ em.Defines name symidx) :
    FindSpec name (em :: ems) value ↔ FindSpec name ems value := by
  rw [FindSpec]
  constructor
  · rintro (⟨i, hi, _⟩ | ⟨_, hrest⟩)
    · exact absurd hi (h i)
    · exact hrest
  · exact fun hrest => Or.inr ⟨h, hrest⟩

/-- Nothing is to be found where no module defines the name. -/
theorem findSpec_zero_iff : FindSpec name ems 0 ↔ ∀ em ∈ ems, ∀ symidx, ¬ em.Defines name symidx := by
  induction ems with
  | nil => exact iff_of_true rfl fun em hem => absurd hem List.not_mem_nil
  | cons em ems ih =>
      rw [FindSpec, ih, List.forall_mem_cons]
      constructor
      · rintro (⟨i, hi, hzero⟩ | hrest)
        · exact absurd hzero.symm (AbiModule.value_ne_zero hi)
        · exact hrest
      · exact Or.inr

theorem findLoop_cons_of_searched {em : AbiModule} {l : List SymModule} (h : em.Searched relocType)
    (sym : Option Elf32Sym) :
    findLoop name relocType (em.toSymModule :: l) sym =
      if em.Agrees name then (em.named name).head?.elim (findLoop name relocType l none) fun sym => some (some sym)
      else findLoop name relocType l none := by
  rw [findLoop, if_neg h.1, if_neg h.2, em.elfLookupHash_eq name h.1]
  dsimp only [elfLookupHashGnu]
  by_cases hagrees : em.Agrees name
  · rw [if_pos hagrees, if_pos hagrees, Option.bind_some]
    cases (em.named name).head? <;> rfl
  · rw [if_neg hagrees, if_neg hagrees, Option.bind_some]

theorem findLoop_cons_of_not_searched {em : AbiModule} {l : List SymModule} (h : ¬ em.Searched relocType)
    (sym : Option Elf32Sym) :
    findLoop name relocType (em.toSymModule :: l) sym = findLoop name relocType l sym := by
  rw [findLoop]
  by_cases hne : em.nbucket = 0
  · rw [if_pos hne]
  · have hcopy : relocType = r386COPY ∧ em.type = elfModTypeExe := by
      by_contra hno
      exact h ⟨hne, hno⟩
    rw [if_neg hne, if_pos hcopy]

/-- The modules that are not searched are passed over. -/
theorem findLoop_searched (sym : Option Elf32Sym) :
    findLoop name relocType (ems.map AbiModule.toSymModule) sym =
      findLoop name relocType ((searched relocType ems).map AbiModule.toSymModule) sym := by
  induction ems generalizing sym with
  | nil => rfl
  | cons em ems ih =>
      rw [List.map_cons, searched]
      by_cases h : em.Searched relocType
      · rw [List.filter_cons_of_pos (by simpa using h), List.map_cons, findLoop_cons_of_searched h,
          findLoop_cons_of_searched h, ih none]
        rfl
      · rw [List.filter_cons_of_neg (by simpa using h), findLoop_cons_of_not_searched h]
        exact ih sym

/-- From the first module that is searched, the loop ends with the first symbol of the name. -/
theorem findLoop_eq (h : ∀ em ∈ ems, em.Searched relocType) :
    findLoop name relocType (ems.map AbiModule.toSymModule) none = some (firstNamed name ems) := by
  induction ems with
  | nil => rfl
  | cons em ems ih =>
      have ⟨hem, hrest⟩ := List.forall_mem_cons.mp h
      rw [List.map_cons, findLoop_cons_of_searched hem, ih hrest, firstNamed]
      by_cases hagrees : em.Agrees name
      · rw [if_pos hagrees, if_pos hagrees]
        cases (em.named name).head? <;> rfl
      · rw [if_neg hagrees, if_neg hagrees]

/-- With a module that is searched, it does not matter what is on the stack. -/
theorem findLoop_stack (h : ∀ em ∈ ems, em.Searched relocType) (hne : ems ≠ []) (sym : Option Elf32Sym) :
    findLoop name relocType (ems.map AbiModule.toSymModule) sym = some (firstNamed name ems) := by
  rw [← findLoop_eq h]
  cases ems with
  | nil => exact absurd rfl hne
  | cons em ems =>
      have hem := (List.forall_mem_cons.mp h).1
      rw [List.map_cons, findLoop_cons_of_searched hem, findLoop_cons_of_searched hem]

theorem symValue_of_bound {sym : Elf32Sym} (h : sym.Bound) : symValue (some sym) = sym.stValue := if_pos h

theorem symValue_of_not_bound {sym : Elf32Sym} (h : ¬ sym.Bound) : symValue (some sym) = 0 := if_neg h

/-- Where the hash leads to another bucket, a symbol of another module would have to have the same value. -/
theorem symValue_eq_iff {em : AbiModule} (sym : Option Elf32Sym) :
    (∃ symidx, em.Defines name symidx ∧ symValue sym = (em.symtab symidx).stValue) ↔
      ∃ s ∈ sym, s.Bound ∧ ∃ symidx, em.Defines name symidx ∧ (em.symtab symidx).stValue = s.stValue := by
  constructor
  · rintro ⟨i, hi, heq⟩
    have hne := AbiModule.value_ne_zero hi
    cases sym with
    | none => exact absurd heq.symm hne
    | some s =>
        by_cases hb : s.Bound
        · rw [symValue_of_bound hb] at heq
          exact ⟨s, rfl, hb, i, hi, heq.symm⟩
        · rw [symValue_of_not_bound hb] at heq
          exact absurd heq.symm hne
  · rintro ⟨s, hs, hb, i, hi, heq⟩
    obtain rfl := Option.mem_def.mp hs
    exact ⟨i, hi, by rw [symValue_of_bound hb, heq]⟩

/-- The condition says when the first symbol of the name has the value that is to be found. -/
theorem namesFit_iff (h : ∀ em ∈ ems, em.nbucket ≠ 0) :
    NamesFit name ems ↔ FindSpec name ems (symValue (firstNamed name ems)) := by
  induction ems with
  | nil => exact iff_of_true trivial rfl
  | cons em ems ih =>
      have ⟨hne, hrest⟩ := List.forall_mem_cons.mp h
      rw [NamesFit, firstNamed]
      by_cases hagrees : em.Agrees name
      · rw [if_pos hagrees, if_pos hagrees]
        cases hnamed : em.named name with
        | nil =>
            rw [List.head?_nil, Option.none_or, findSpec_cons_of_none (AbiModule.not_defines_of_nil hne hnamed)]
            exact ih hrest
        | cons sym _ =>
            rw [List.head?_cons, Option.some_or]
            dsimp only
            have hmem : sym ∈ em.named name := hnamed ▸ List.mem_cons_self
            by_cases hb : sym.Bound
            · rw [if_pos hb, symValue_of_bound hb, or_iff_right_iff_imp]
              exact fun htype => Or.inl (AbiModule.defines_of_mem hne hmem hb htype)
            · rw [if_neg hb, symValue_of_not_bound hb]
              exact findSpec_zero_iff.symm
      · rw [if_neg hagrees, if_neg hagrees]
        by_cases hdef : ∃ symidx, em.Defines name symidx
        · rw [FindSpec, symValue_eq_iff]
          have hno : ¬ ∀ symidx, ¬ em.Defines name symidx := fun hall => hdef.elim hall
          constructor
          · rintro (⟨hall, _⟩ | hsame)
            · exact absurd hall hno
            · exact Or.inl hsame
          · rintro (hsame | ⟨hall, _⟩)
            · exact Or.inr hsame
            · exact absurd hall hno
        · have hnone : ∀ symidx, ¬ em.Defines name symidx := not_exists.mp hdef
          rw [findSpec_cons_of_none hnone, ← ih hrest]
          constructor
          · rintro (⟨_, hfit⟩ | ⟨_, _, _, i, hi, _⟩)
            · exact hfit
            · exact absurd hi (hnone i)
          · exact fun hfit => Or.inl ⟨hnone, hfit⟩

end

theorem searched_spec {relocType : ℤ} {ems : List AbiModule} : ∀ em ∈ searched relocType ems, em.Searched relocType := by
  intro em hem
  simpa using (List.mem_filter.mp hem).2

/-- `elf_find_hash` finds what is to be found if and only if it searches some module and, up to the one that defines
the name, the hash leads to the right bucket and the first symbol that `sym_match` takes is one that counts. -/
theorem findRight_iff (name : List (BitVec 8)) (relocType : ℤ) (ems : List AbiModule) :
    FindRight name relocType ems ↔ searched relocType ems ≠ [] ∧ NamesFit name (searched relocType ems) := by
  have hspec : ∀ em ∈ searched relocType ems, em.Searched relocType := searched_spec
  have hfind : ∀ sym, elfFindHash name (ems.map AbiModule.toSymModule) relocType sym =
      (findLoop name relocType ((searched relocType ems).map AbiModule.toSymModule) sym).map symValue := by
    intro sym
    rw [elfFindHash, findLoop_searched]
  rw [FindRight]
  simp only [hfind]
  generalize searched relocType ems = l at hspec
  by_cases hl : l = []
  · subst hl
    refine iff_of_false (fun hall => ?_) fun h => h.1 rfl
    -- a global symbol with the value 1 on the stack
    obtain ⟨value, hvalue, hzero⟩ := hall (some { stName := 0, stValue := 1, stInfo := 0x10, stShndx := 1 })
    obtain rfl := Option.some.inj hvalue
    change (1 : BitVec 32) = 0 at hzero
    exact absurd hzero (by decide)
  · rw [namesFit_iff fun em hem => (hspec em hem).1, and_iff_right hl]
    simp only [findLoop_stack hspec hl, Option.map_some, Option.some.injEq, exists_eq_left', forall_const]

/-! ## Modules with one symbol -/

/-- A module of which the hash table has one bucket, with one symbol. -/
def oneSymbol (sym : Elf32Sym) (name : List (BitVec 8)) : AbiModule where
  type := 2
  nbucket := 1
  nchain := 2
  elfBuckets := fun _ => 1
  chains := fun _ => 0
  symtab := fun _ => sym
  strtab := fun _ => name
  chain := fun _ => [1]
  chain_ends := fun _ _ => ⟨rfl, rfl⟩
  mem_chain := by
    intro hash i _
    have hmod (x y : BitVec 32) : x % 1 = y % 1 := BitVec.umod_one.trans BitVec.umod_one.symm
    rw [List.mem_singleton]
    constructor
    · rintro rfl
      exact ⟨by decide, by decide, hmod _ _⟩
    · rintro ⟨h0, hlt, _⟩
      refine BitVec.eq_of_toNat_eq ?_
      have hone : i.toNat < 2 := hlt
      have hne : i.toNat ≠ 0 := fun hz => h0 (BitVec.eq_of_toNat_eq hz)
      change i.toNat = 1
      omega

/-- A local symbol `f` in the first library hides the function `f` of the second one. -/
theorem local_hides_global : ¬ ∀ name relocType ems, FindRight name relocType ems := by
  intro hall
  obtain ⟨value, hvalue, hspec⟩ := hall [102] 7
    [oneSymbol { stName := 0, stValue := 16, stInfo := 0x02, stShndx := 1 } [102],
      oneSymbol { stName := 0, stValue := 32, stInfo := 0x12, stShndx := 1 } [102]] none
  have hzero : value = 0 := (Option.some.inj hvalue).symm.trans (by decide)
  rw [hzero, findSpec_zero_iff] at hspec
  refine hspec _ (List.mem_cons_of_mem _ List.mem_cons_self) 1 ?_
  decide

end Shaunos.Elf
