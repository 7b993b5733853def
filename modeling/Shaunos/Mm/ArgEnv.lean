import Shaunos.Common.LoggedMem
import Shaunos.Mm.AllocPages
import Shaunos.Mm.CopyIn
import Shaunos.Mm.MapPages

/-!
# The arguments and the environment of a new process

Reference: `Kernel/kthread.c` (`count`, `copy_strings`, `setup_arg_env`), `lib/string.c` (`strlen`, `strncpy`),
`Include/kernel/page.h` (`ARG_BASE`, `ENV_BASE`), `Kernel/main.c` (`init`).

Each vector gets a page of its own, with a table of pointers, and the strings behind it. `map_page` puts the
page at `ARG_BASE` or at `ENV_BASE` of the process; what it and `vm_insert` write is not modelled. All that is
written to the pages is logged.

* `setupRight_iff` — when both vectors reach the process.
-/

namespace Shaunos.Mm

/-! ## The code -/

def e2BIG : ℤ := 7

def pageSize : ℕ := 4096

/-- `ENV_BASE`. -/
def envBase : BitVec 32 := pageOffset - 2#32 <<< 12

/-- `ARG_BASE`. -/
def argBase : BitVec 32 := envBase - 2#32 <<< 12

/-- The scan of `strlen`, over `n` bytes. -/
def strlenIn (mem : Memory) : (n : ℕ) → (s : BitVec 32) → Option ℕ
  | 0, _ => none
  | n + 1, s => if mem s = 0 then some 0 else (strlenIn mem n (s + 1)).map (· + 1)

/-- `strlen`. It does not come back if no byte of the memory is 0. -/
def strlen (mem : Memory) (s : BitVec 32) : Option ℕ := strlenIn mem (2 ^ 32) s

/-- `strncpy`. Where `src` is too long, a byte behind the `n` bytes of `dest` is set to 0. -/
def strncpy (m : LoggedMem 32) (dest src : BitVec 32) (n : ℕ) : LoggedMem 32 :=
  let s := ((List.range n).map fun i => m.mem (src + BitVec.ofNat 32 i)).takeWhile (· ≠ 0)
  if n = 0 then m
  else m.put dest (if s.length < n then s ++ List.replicate (n - s.length) 0 else s ++ [0])

/-- The loop of `count`, from entry `i` on, which is at `p`. -/
def countFrom (mem : Memory) (p : BitVec 32) (i : ℕ) : ℤ :=
  if readWord mem p = 0 then i
  else if 64 < i then -e2BIG
  else countFrom mem (p + 4) (i + 1)
termination_by 65 - i

/-- `count`. -/
def count (mem : Memory) (p : BitVec 32) : ℤ := countFrom mem p 0

/-- `copy_from_user`, with what it writes to the memory of the kernel. -/
def copyFromUserTo (as : AddrSpace) (m : LoggedMem 32) (dest src size : BitVec 32) : Option (LoggedMem 32) :=
  (copyFromUser as m.mem dest src size fun i => m.mem (dest + BitVec.ofNat 32 i)).map fun r =>
    if r.1 = 0 ∧ 0 < size.toInt ∧ dest ≠ 0 ∧ src ≠ 0 then m.put dest ((List.range size.toNat).map r.2) else m

/-- The loop of `copy_strings`, for the entry of `argv` at `argv` and those behind it. -/
def copyStringsLoop (as : AddrSpace) (dest last baddr : BitVec 32) :
    (argc : ℕ) → (argv p0 offset : BitVec 32) → LoggedMem 32 → Option (ℤ × LoggedMem 32)
  | 0, _, _, _, m => some (0, m)
  | argc + 1, argv, p0, offset, m =>
      let str := readWord m.mem argv
      if str = 0 then some (0, m)
      else (strlen m.mem str).bind fun n =>
        let len := BitVec.ofNat 32 n + 1
        -- The string may start in the last byte of the page, or right behind it.
        if dest + offset > last then some (-e2BIG, m)
        else (copyFromUserTo as m (dest + offset) str len).bind fun m =>
          copyStringsLoop as dest last baddr argc (argv + 4) (p0 + 4) (offset + len)
            (m.put p0 (wordBytes (baddr + ((dest + offset) &&& 0xFFF))))

/-- `copy_strings`. -/
def copyStrings (as : AddrSpace) (argc : ℤ) (argv dest p0 baddr : BitVec 32) (m : LoggedMem 32) :
    Option (ℤ × LoggedMem 32) :=
  copyStringsLoop as dest (pageAlign dest) baddr argc.toNat argv p0 0 m

/-- `PROC_NAME_MAX`. -/
def procNameMax : ℕ := 32

/-- The part of `setup_arg_env` for `argv`, with the page of `get_zero_page` at `addr` and `p_name` at `pName`. -/
def setupArgv (as : AddrSpace) (mem : Memory) (addr argv pName : BitVec 32) : Option (ℤ × LoggedMem 32) :=
  let argc := count mem argv
  if argc < 0 then some (argc, ⟨mem, []⟩)
  else if addr = 0 then none
  else
    let argc := argc + 1
    let m := LoggedMem.put ⟨memset mem addr 0 4096, []⟩ addr (wordBytes (BitVec.ofInt 32 argc))
    let p0 := addr + 4
    let p := p0 + 64 * 4
    let m := strncpy m p pName procNameMax
    let m := m.put p0 (wordBytes (argBase + (p &&& 0xFFF)))
    (strlen m.mem pName).bind fun n =>
      -- The result of `copy_strings` is not looked at.
      (copyStrings as argc argv (p + BitVec.ofNat 32 n + 1) (p0 + 4) argBase m).map fun r => (0, r.2)

/-- The part of `setup_arg_env` for `envp`, with the page of `get_zero_page` at `addr`. -/
def setupEnvp (as : AddrSpace) (mem : Memory) (addr envp : BitVec 32) : Option (ℤ × LoggedMem 32) :=
  let envc := count mem envp
  if envc < 0 then some (envc, ⟨mem, []⟩)
  else if addr = 0 then none
  else
    (copyStrings as envc envp (addr + 64 * 4) addr envBase ⟨memset mem addr 0 4096, []⟩).map fun r => (0, r.2)

/-- What `setup_arg_env` leaves. -/
structure ArgEnv where
  ret : ℤ
  mem : Memory
  /-- What was written for `argv`. -/
  argWrites : List (BitVec 32 × ℕ)
  /-- What was written for `envp`. -/
  envWrites : List (BitVec 32 × ℕ)

/-- `setup_arg_env`. -/
def setupArgEnv (as : AddrSpace) (mem : Memory) (argPage envPage argv envp pName : BitVec 32) :
    Option ArgEnv := do
  let (ret, m) ← (if argv ≠ 0 then setupArgv as mem argPage argv pName else some (0, ⟨mem, []⟩))
  if ret < 0 then return ⟨ret, m.mem, m.writes, []⟩
  else
    let (ret, m') ← (if envp ≠ 0 then setupEnvp as m.mem envPage envp else some (0, ⟨m.mem, []⟩))
    return ⟨ret, m'.mem, m.writes, m'.writes⟩

/-! ## What it should do -/

/-- A string, by its address and its bytes before the terminator. -/
structure ArgString where
  addr : BitVec 32
  bytes : List (BitVec 8)
  noNul : 0#8 ∉ bytes

/-- The bytes with the terminator. -/
def ArgString.text (s : ArgString) : List (BitVec 8) := s.bytes ++ [0]

/-- The size with the terminator. -/
def ArgString.size (s : ArgString) : ℕ := s.bytes.length + 1

/-- The string is in memory, in pages that are present. -/
def ArgString.In (as : AddrSpace) (mem : Memory) (s : ArgString) : Prop :=
  HasBytes mem s.addr s.text ∧ ∀ i < s.size, as.Allows pgBitPresent (s.addr + BitVec.ofNat 32 i)

/-- A vector of strings, with a null pointer behind the last. -/
def HasVector (as : AddrSpace) (mem : Memory) : (p : BitVec 32) → (strs : List ArgString) → Prop
  | p, [] => readWord mem p = 0
  | p, s :: strs => readWord mem p = s.addr ∧ s.addr ≠ 0 ∧ s.In as mem ∧ HasVector as mem (p + 4) strs

/-- The bytes of a page. -/
def InPage (page a : BitVec 32) : Prop := (a - page).toNat < pageSize

/-- What is written is in the page. -/
def InsidePage (page : BitVec 32) (writes : List (BitVec 32 × ℕ)) : Prop :=
  ∀ w ∈ writes, ∀ i < w.2, InPage page (w.1 + BitVec.ofNat 32 i)

/-- The slot at `slot` has the address of a copy of `s`, in the page that the process has at `base`, behind the
first `table` bytes. -/
def SlotRight (mem : Memory) (page base slot : BitVec 32) (table : ℕ) (s : ArgString) : Prop :=
  ∃ off, readWord mem slot = base + BitVec.ofNat 32 off ∧ table ≤ off ∧ off + s.size ≤ pageSize ∧
    HasBytes mem (page + BitVec.ofNat 32 off) s.text

/-- All slots of a vector are right. The table starts at `start`. -/
def VectorRight (mem : Memory) (page base : BitVec 32) (start : ℕ) (strs : List ArgString) : Prop :=
  ∀ i (h : i < strs.length),
    SlotRight mem page base (page + BitVec.ofNat 32 (start + 4 * i)) (start + 4 * strs.length) (strs.get ⟨i, h⟩)

/-- What `setup_arg_env` is called with. -/
structure SetupCall where
  as : AddrSpace
  mem : Memory
  /-- The page for `argv`. -/
  argPage : BitVec 32
  /-- The page for `envp`. -/
  envPage : BitVec 32
  argv : BitVec 32
  envp : BitVec 32
  /-- `proc->p_name`. -/
  name : ArgString
  args : List ArgString
  envs : List ArgString

/-- A call as `kcreate_process` makes it. The pages are new: what is written to them changes neither vector nor
the name, which has at most `PROC_NAME_MAX` bytes. -/
structure SetupCall.Valid (c : SetupCall) : Prop where
  argPage : c.argPage ≠ 0 ∧ c.argPage.toNat % pageSize = 0
  envPage : c.envPage ≠ 0 ∧ c.envPage.toNat % pageSize = 0
  pages : c.argPage ≠ c.envPage
  nameLen : c.name.bytes.length ≤ procNameMax
  kept : ∀ mem, (∀ a, ¬ InPage c.argPage a → ¬ InPage c.envPage a → mem a = c.mem a) →
    c.name.In c.as mem ∧ (c.argv ≠ 0 → HasVector c.as mem c.argv c.args) ∧
      (c.envp ≠ 0 → HasVector c.as mem c.envp c.envs)

/-- `count` takes the vectors. -/
def SetupCall.Accepted (c : SetupCall) : Prop :=
  (c.argv ≠ 0 → 0 ≤ count c.mem c.argv) ∧ (c.envp ≠ 0 → 0 ≤ count c.mem c.envp)

/-- A call with vectors that `count` takes writes each inside its page, and it fails with `E2BIG` or all slots are
right, the first of `argv` with the name. -/
def SetupRight (c : SetupCall) : Prop :=
  c.Accepted → ∃ e, setupArgEnv c.as c.mem c.argPage c.envPage c.argv c.envp c.name.addr = some e ∧
    InsidePage c.argPage e.argWrites ∧ InsidePage c.envPage e.envWrites ∧
    (e.ret = -e2BIG ∨ e.ret = 0 ∧
      (c.argv ≠ 0 → VectorRight e.mem c.argPage argBase 4 (c.name :: c.args)) ∧
      (c.envp ≠ 0 → VectorRight e.mem c.envPage envBase 0 c.envs))

/-- The copy from the user takes a string, or nothing is to be copied. -/
def ArgString.Taken (s : ArgString) : Prop :=
  s.bytes = [] ∨ s.addr + BitVec.ofNat 32 s.size ≤ pageOffset

/-- The bytes that some strings need. -/
def textSize (strs : List ArgString) : ℕ := (strs.map ArgString.size).sum

/-- A vector fits behind the first `start` bytes of its page. The end of the page is not 0, in 32 bits, or there
are no strings. -/
def VectorFits (page : BitVec 32) (start : ℕ) (strs : List ArgString) : Prop :=
  strs = [] ∨ page.toNat + pageSize < 2 ^ 32 ∧ start + textSize strs ≤ pageSize ∧ ∀ s ∈ strs, s.Taken

/-- When it does. Some vector has more than 65 entries; or there are at most 63 arguments and 64 strings in the
environment, and they fit behind the tables, the arguments also behind the name. -/
def SetupOk (c : SetupCall) : Prop :=
  (c.argv ≠ 0 ∧ 65 < c.args.length) ∨ (c.envp ≠ 0 ∧ 65 < c.envs.length) ∨
    ((c.argv ≠ 0 → c.args.length ≤ 63 ∧ VectorFits c.argPage (260 + c.name.size) c.args) ∧
      (c.envp ≠ 0 → c.envs.length ≤ 64 ∧ VectorFits c.envPage 256 c.envs))

/-! ## Strings -/

section

variable {m : LoggedMem 32} {mem : Memory} {page a d : BitVec 32} {n : ℕ} {as : AddrSpace} {s : ArgString}
  {writes writes' : List (BitVec 32 × ℕ)}

theorem InsidePage.not_touched (h : InsidePage page writes) (ha : ¬ InPage page a) : ¬ Touched writes a := by
  rintro ⟨w, hw, i, hi, rfl⟩
  exact ha (h w hw i hi)

theorem InsidePage.mono (h : InsidePage page writes') (hsub : writes ⊆ writes') : InsidePage page writes :=
  fun w hw => h w (hsub hw)

theorem mem_eq_of_inside {m m' : LoggedMem 32} (h : m.Extends m') (hin : InsidePage page m'.writes)
    (ha : ¬ InPage page a) : m'.mem a = m.mem a :=
  h.mem_eq (hin.not_touched ha)

theorem getD_replicate_zero (n i : ℕ) : (List.replicate n (0 : BitVec 8)).getD i 0 = 0 := by
  rw [List.getD_eq_getElem?_getD, List.getElem?_replicate]
  split <;> rfl

theorem ArgString.length_text (s : ArgString) : s.text.length = s.size := by
  rw [text, size, List.length_append, List.length_singleton]

theorem ArgString.size_pos (s : ArgString) : 0 < s.size := Nat.succ_pos _

theorem strlenIn_eq {bytes : List (BitVec 8)} (hbytes : 0#8 ∉ bytes) (h : HasBytes mem a (bytes ++ [0]))
    (hn : bytes.length < n) : strlenIn mem n a = some bytes.length := by
  induction bytes generalizing a n with
  | nil =>
      obtain ⟨n, rfl⟩ := Nat.exists_eq_add_of_lt hn
      rw [strlenIn, if_pos (hasBytes_cons.mp h).1]
      rfl
  | cons x bytes ih =>
      obtain ⟨hx, h⟩ := hasBytes_cons.mp h
      rw [List.mem_cons, not_or] at hbytes
      cases n with
      | zero => cases hn
      | succ n =>
          rw [strlenIn, if_neg (hx ▸ Ne.symm hbytes.1), ih hbytes.2 h (Nat.lt_of_succ_lt_succ hn)]
          rfl

/-- A string ends before the addresses come round. -/
theorem length_lt_of_hasBytes {bytes : List (BitVec 8)} (hbytes : 0#8 ∉ bytes)
    (h : HasBytes mem a (bytes ++ [0])) : bytes.length < 2 ^ 32 := by
  by_contra hge
  have hlt : bytes.length % 2 ^ 32 < bytes.length := by
    have := Nat.mod_lt bytes.length (y := 2 ^ 32) (by decide)
    omega
  have hend := h bytes.length (by simp)
  have hbyte := h (bytes.length % 2 ^ 32) (by simp; omega)
  have hsame : BitVec.ofNat 32 (bytes.length % 2 ^ 32) = BitVec.ofNat 32 bytes.length := by
    apply BitVec.eq_of_toNat_eq
    simp
  rw [hsame, hend] at hbyte
  simp only [List.get_eq_getElem, List.getElem_append_left hlt, List.getElem_concat_length] at hbyte
  exact hbytes (List.mem_of_getElem hbyte.symm)

theorem ArgString.In.strlen_eq (h : s.In as mem) : strlen mem s.addr = some s.bytes.length :=
  strlenIn_eq s.noNul h.1 (length_lt_of_hasBytes s.noNul h.1)

/-- A string that lies below the kernel is copied, and any other is not. -/
theorem copyFromUser_eq (hs : s.In as m.mem) (hsize : s.size < 2 ^ 31) (hdest : d ≠ 0) (hsrc : s.addr ≠ 0) :
    copyFromUserTo as m d s.addr (BitVec.ofNat 32 s.size) =
      some (if s.addr + BitVec.ofNat 32 s.size ≤ pageOffset then m.put d s.text else m) := by
  have hnat : (BitVec.ofNat 32 s.size).toNat = s.size := by
    rw [BitVec.toNat_ofNat, Nat.mod_eq_of_lt (by omega)]
  have hpos : 0 < (BitVec.ofNat 32 s.size).toInt := by
    rw [BitVec.toInt_eq_toNat_of_lt (by omega), hnat]
    exact_mod_cast s.size_pos
  have hnull : ¬ (d = 0 ∨ s.addr = 0) := not_or.mpr ⟨hdest, hsrc⟩
  rw [copyFromUserTo]
  by_cases hroom : s.addr + BitVec.ofNat 32 s.size ≤ pageOffset
  · rw [if_pos hroom, copyFromUser_of_present hpos hnull (by bv_omega) (by rw [hnat]; exact hs.2),
      Option.map_some, if_pos ⟨rfl, hpos, hdest, hsrc⟩, hnat]
    congr 2
    refine List.ext_getElem (by rw [List.length_map, List.length_range, s.length_text]) fun i hi hi' => ?_
    rw [List.length_map, List.length_range] at hi
    simp only [List.getElem_map, List.getElem_range, if_pos hi]
    exact hs.1 i hi'
  · rw [if_neg hroom, copyFromUser_of_pos hpos, if_neg hnull, if_pos (by bv_omega), Option.map_some,
      if_neg fun h => by cases h.1]

/-! ### Vectors -/

variable {p : BitVec 32} {strs : List ArgString}

theorem countFrom_eq (h : HasVector as mem p strs) (hn : n ≤ 65) :
    countFrom mem p n = if n + strs.length ≤ 65 then ((n + strs.length : ℕ) : ℤ) else -e2BIG := by
  induction strs generalizing p n with
  | nil => rw [countFrom, if_pos (show readWord mem p = 0 from h), List.length_nil, add_zero, if_pos hn]
  | cons s strs ih =>
      obtain ⟨hp, hs, _, h⟩ := h
      rw [countFrom, if_neg (hp ▸ hs), List.length_cons]
      by_cases hlast : 64 < n
      · rw [if_pos hlast, if_neg (by omega)]
      · rw [if_neg hlast, ih h (by omega), add_right_comm, add_assoc n]

theorem count_eq (h : HasVector as mem p strs) :
    count mem p = if strs.length ≤ 65 then (strs.length : ℤ) else -e2BIG := by
  rw [count, countFrom_eq h (by omega), zero_add]

theorem count_nonneg_iff (h : HasVector as mem p strs) : 0 ≤ count mem p ↔ strs.length ≤ 65 := by
  rw [count_eq h]
  split
  · exact iff_of_true (Int.natCast_nonneg _) ‹_›
  · exact iff_of_false (by decide) ‹_›

end

/-! ## One string -/

/-- What the loop writes for a string: its text at offset `d` of the page, and its slot. -/
def place (m : LoggedMem 32) (page base p0 : BitVec 32) (d : ℕ) (s : ArgString) : LoggedMem 32 :=
  (if s.addr + BitVec.ofNat 32 s.size ≤ pageOffset then m.put (page + BitVec.ofNat 32 d) s.text
    else m).put p0 (wordBytes (base + BitVec.ofNat 32 (d % pageSize)))

section

variable {m m' : LoggedMem 32} {page base a argv p0 dest offset : BitVec 32} {as : AddrSpace} {s : ArgString}
  {strs : List ArgString} {d t o argc table : ℕ} {r : ℤ} {writes : List (BitVec 32 × ℕ)}

theorem insidePage_cons {w : BitVec 32} {n : ℕ} (hn : o + n ≤ 2 ^ 32) (hw : w = page + BitVec.ofNat 32 o) :
    InsidePage page ((w, n) :: writes) ↔ (n ≠ 0 → o + n ≤ pageSize) ∧ InsidePage page writes := by
  rw [InsidePage, List.forall_mem_cons]
  refine and_congr_left fun _ => ?_
  subst hw
  have hin {i : ℕ} (hi : i < n) :
      InPage page (page + BitVec.ofNat 32 o + BitVec.ofNat 32 i) ↔ o + i < pageSize := by
    rw [InPage, add_assoc, ← BitVec.ofNat_add, offset_add (by omega)]
  constructor
  · intro h hpos
    have := (hin (Nat.sub_one_lt hpos)).mp (h (n - 1) (Nat.sub_one_lt hpos))
    omega
  · intro h i hi
    have := h (by omega)
    exact (hin hi).mpr (by omega)

theorem insidePage_word {w : BitVec 32} (ho : o + 4 ≤ pageSize) :
    InsidePage page (m.put (page + BitVec.ofNat 32 o) (wordBytes w)).writes ↔ InsidePage page m.writes := by
  rw [LoggedMem.put, length_wordBytes, insidePage_cons (by rw [pageSize] at ho; omega) rfl]
  exact and_iff_right fun _ => ho

/-- The log of `place`. -/
theorem insidePage_place (ht : t + 4 ≤ pageSize) (hd : d ≤ pageSize) (hsize : s.size ≤ pageSize) :
    InsidePage page (place m page base (page + BitVec.ofNat 32 t) d s).writes ↔
      (s.addr + BitVec.ofNat 32 s.size ≤ pageOffset → d + s.size ≤ pageSize) ∧ InsidePage page m.writes := by
  have hpage : pageSize = 4096 := rfl
  rw [place, insidePage_word ht]
  by_cases hcopy : s.addr + BitVec.ofNat 32 s.size ≤ pageOffset
  · rw [if_pos hcopy, imp_iff_right hcopy, LoggedMem.put, s.length_text,
      insidePage_cons (by omega) rfl, imp_iff_right s.size_pos.ne']
  · rw [if_neg hcopy]
    exact (and_iff_right fun h => absurd h hcopy).symm

/-- Below the text, only the slot is written. -/
theorem place_below (ha : (a - page).toNat < d) (hslot : (a - page).toNat < t ∨ t + 4 ≤ (a - page).toNat)
    (ht : t ≤ pageSize) (hd : d ≤ pageSize) (hsize : s.size ≤ pageSize) :
    (place m page base (page + BitVec.ofNat 32 t) d s).mem a = m.mem a := by
  have hpage : pageSize = 4096 := rfl
  have hword : (place m page base (page + BitVec.ofNat 32 t) d s).mem a =
      (if s.addr + BitVec.ofNat 32 s.size ≤ pageOffset then m.put (page + BitVec.ofNat 32 d) s.text
        else m).mem a := by
    cases hslot with
    | inl hlt => exact LoggedMem.put_below hlt (by rw [length_wordBytes]; omega)
    | inr hge => exact LoggedMem.put_above hge
  rw [hword]
  split
  · exact LoggedMem.put_below ha (by rw [s.length_text]; omega)
  · rfl

/-- Nothing is written above the text. -/
theorem place_above (ha : d + s.size ≤ (a - page).toNat) (ht : t + 4 ≤ d) :
    (place m page base (page + BitVec.ofNat 32 t) d s).mem a = m.mem a := by
  rw [place, LoggedMem.put_above (by rw [length_wordBytes]; omega)]
  split
  · exact LoggedMem.put_above (by rw [s.length_text]; exact ha)
  · rfl

theorem readWord_place (m : LoggedMem 32) (page base p0 : BitVec 32) (d : ℕ) (s : ArgString) :
    readWord (place m page base p0 d s).mem p0 = base + BitVec.ofNat 32 (d % pageSize) :=
  LoggedMem.readWord_put (by decide) _

/-- The text is there if the string is taken; an empty string finds its terminator. -/
theorem hasBytes_place (base : BitVec 32) (hzero : m.mem (page + BitVec.ofNat 32 d) = 0) (ht : t + 4 ≤ d)
    (hd : d + s.size ≤ pageSize) :
    HasBytes (place m page base (page + BitVec.ofNat 32 t) d s).mem (page + BitVec.ofNat 32 d) s.text ↔
      s.Taken := by
  have hpage : pageSize = 4096 := rfl
  have habove {i : ℕ} (m : LoggedMem 32) (w : BitVec 32) (hi : i < s.size) :
      (m.put (page + BitVec.ofNat 32 t) (wordBytes w)).mem (page + BitVec.ofNat 32 d + BitVec.ofNat 32 i) =
        m.mem (page + BitVec.ofNat 32 d + BitVec.ofNat 32 i) := by
    rw [add_assoc, ← BitVec.ofNat_add]
    exact LoggedMem.put_above (by rw [offset_add (by omega), length_wordBytes]; omega)
  rw [place, ArgString.Taken]
  by_cases hcopy : s.addr + BitVec.ofNat 32 s.size ≤ pageOffset
  · rw [if_pos hcopy]
    refine iff_of_true ?_ (.inr hcopy)
    have htext : HasBytes (m.put (page + BitVec.ofNat 32 d) s.text).mem (page + BitVec.ofNat 32 d) s.text :=
      LoggedMem.hasBytes_put (by rw [s.length_text]; omega)
    exact htext.congr fun i hi => habove _ _ (by rwa [← s.length_text])
  · rw [if_neg hcopy, or_iff_left hcopy]
    have hfirst : (m.put (page + BitVec.ofNat 32 t)
        (wordBytes (base + BitVec.ofNat 32 (d % pageSize)))).mem (page + BitVec.ofNat 32 d) = 0 := by
      have h := habove m (base + BitVec.ofNat 32 (d % pageSize)) s.size_pos
      rw [BitVec.add_zero] at h
      exact h.trans hzero
    rw [ArgString.text]
    constructor
    · intro h
      cases hb : s.bytes with
      | nil => rfl
      | cons x bytes =>
          rw [hb] at h
          have hx := (hasBytes_cons.mp h).1
          exact absurd (hb ▸ hx ▸ hfirst ▸ List.mem_cons_self) s.noNul
    · intro hb
      rw [hb]
      exact hasBytes_cons.mpr ⟨hfirst, fun i hi => absurd hi (Nat.not_lt_zero i)⟩

end

/-! ## The loop -/

/-- A page that is new, and not the last one. -/
structure PageOk (page : BitVec 32) : Prop where
  ne : page ≠ 0
  aligned : page.toNat % pageSize = 0
  notLast : page.toNat + pageSize < 2 ^ 32

/-- What is written to the page does not change the vector. -/
def VectorKept (as : AddrSpace) (page : BitVec 32) (mem₀ : Memory) (argv : BitVec 32)
    (strs : List ArgString) : Prop :=
  ∀ mem, (∀ a, ¬ InPage page a → mem a = mem₀ a) → HasVector as mem argv strs

section

variable {m m' : LoggedMem 32} {mem mem' : Memory} {page base a last argv p0 dest offset : BitVec 32}
  {as : AddrSpace} {s : ArgString} {strs : List ArgString} {d t argc table : ℕ} {r : ℤ}

theorem VectorKept.vector (h : VectorKept as page mem argv strs) : HasVector as mem argv strs :=
  h mem fun _ _ => rfl

theorem VectorKept.tail (h : VectorKept as page mem argv (s :: strs)) :
    VectorKept as page mem (argv + 4) strs := fun mem' hmem => (h mem' hmem).2.2.2

theorem VectorKept.congr (h : VectorKept as page mem argv strs)
    (hmem : ∀ a, ¬ InPage page a → mem' a = mem a) : VectorKept as page mem' argv strs :=
  fun mem'' h' => h mem'' fun a ha => (h' a ha).trans (hmem a ha)

theorem extends_copyFromUserTo {src size : BitVec 32} (h : copyFromUserTo as m dest src size = some m') :
    m.Extends m' := by
  rw [copyFromUserTo, Option.map_eq_some_iff] at h
  obtain ⟨res, _, rfl⟩ := h
  split
  · exact m.extends_put _ _
  · exact .refl m

/-- Whatever it does, the loop logs what it writes. -/
theorem extends_copyStringsLoop (h : copyStringsLoop as dest last base argc argv p0 offset m = some (r, m')) :
    m.Extends m' := by
  induction argc generalizing argv p0 offset m with
  | zero =>
      obtain ⟨-, rfl⟩ := Prod.mk.inj (Option.some.inj h)
      exact .refl m
  | succ argc ih =>
      rw [copyStringsLoop] at h
      dsimp only at h
      split at h
      · obtain ⟨-, rfl⟩ := Prod.mk.inj (Option.some.inj h)
        exact .refl m
      · obtain ⟨n, _, h⟩ := Option.bind_eq_some_iff.mp h
        split at h
        · obtain ⟨-, rfl⟩ := Prod.mk.inj (Option.some.inj h)
          exact .refl m
        · obtain ⟨m₁, hcopy, h⟩ := Option.bind_eq_some_iff.mp h
          exact (extends_copyFromUserTo hcopy).trans ((m₁.extends_put _ _).trans (ih h))

theorem extends_place : m.Extends (place m page base p0 d s) := by
  rw [place]
  split
  · exact (m.extends_put _ _).trans (LoggedMem.extends_put _ _ _)
  · exact m.extends_put _ _

theorem copyStringsLoop_nil (hv : HasVector as m.mem argv []) :
    copyStringsLoop as dest last base argc argv p0 offset m = some (0, m) := by
  cases argc with
  | zero => rfl
  | succ argc => exact if_pos (show readWord m.mem argv = 0 from hv)

theorem and_0xFFF (hpage : page.toNat % pageSize = 0) :
    (page + BitVec.ofNat 32 d) &&& 0xFFF = BitVec.ofNat 32 (d % pageSize) := by
  apply BitVec.eq_of_toNat_eq
  have hmask : (0xFFF : BitVec 32).toNat = 2 ^ 12 - 1 := rfl
  rw [BitVec.toNat_and, hmask, Nat.and_two_pow_sub_one_eq_mod, BitVec.toNat_add, BitVec.toNat_ofNat,
    BitVec.toNat_ofNat]
  rw [pageSize] at hpage ⊢
  omega

/-- A string that starts in the page, or right behind it, is placed there. -/
theorem copyStringsLoop_cons (hpage : PageOk page) (hoff : dest + offset = page + BitVec.ofNat 32 d)
    (hd : d ≤ pageSize) (hsize : s.size ≤ pageSize) (hv : HasVector as m.mem argv (s :: strs)) :
    copyStringsLoop as dest (page + BitVec.ofNat 32 pageSize) base (argc + 1) argv p0 offset m =
      copyStringsLoop as dest (page + BitVec.ofNat 32 pageSize) base argc (argv + 4) (p0 + 4)
        (offset + BitVec.ofNat 32 s.size) (place m page base p0 d s) := by
  obtain ⟨hp, hne, hin, _⟩ := hv
  have hps : pageSize = 4096 := rfl
  have hlast := hpage.notLast
  have hstart : ¬ page + BitVec.ofNat 32 d > page + BitVec.ofNat 32 pageSize := by
    rw [gt_iff_lt, BitVec.lt_def, toNat_add_ofNat hlast, toNat_add_ofNat (by omega)]
    omega
  have hdest : page + BitVec.ofNat 32 d ≠ 0 := by
    intro h
    have hzero := toNat_add_ofNat (show page.toNat + d < 2 ^ 32 by omega)
    have h0 : (0 : BitVec 32).toNat = 0 := rfl
    rw [h, h0] at hzero
    exact hpage.ne (BitVec.eq_of_toNat_eq (by rw [h0]; omega))
  have hlen : BitVec.ofNat 32 s.bytes.length + 1 = BitVec.ofNat 32 s.size := (BitVec.ofNat_add _ _).symm
  rw [copyStringsLoop]
  dsimp only
  rw [hp, if_neg hne, hin.strlen_eq, Option.bind_some, hoff, if_neg hstart, hlen,
    copyFromUser_eq hin (by omega) hdest hne, Option.bind_some, and_0xFFF hpage.aligned, place]

/-- The loop gives up behind the page. -/
theorem copyStringsLoop_full (base p0 : BitVec 32) (hpage : PageOk page) (hoff : dest + offset = page + BitVec.ofNat 32 d)
    (hd : pageSize < d) (hwrap : d < 2 * pageSize) (hv : HasVector as m.mem argv strs)
    (hargc : strs.length ≤ argc) :
    ∃ r, copyStringsLoop as dest (page + BitVec.ofNat 32 pageSize) base argc argv p0 offset m = some (r, m) := by
  cases strs with
  | nil => exact ⟨0, copyStringsLoop_nil hv⟩
  | cons s strs =>
      obtain ⟨hp, hne, hin, _⟩ := hv
      obtain ⟨argc, rfl⟩ := Nat.exists_eq_add_of_le' (Nat.one_le_of_lt hargc)
      have hstart : page + BitVec.ofNat 32 d > page + BitVec.ofNat 32 pageSize := by
        have halign := hpage.aligned
        have hlast := hpage.notLast
        rw [gt_iff_lt, BitVec.lt_def, toNat_add_ofNat hlast]
        rw [pageSize] at *
        rw [toNat_add_ofNat (by omega)]
        omega
      refine ⟨-e2BIG, ?_⟩
      rw [copyStringsLoop]
      dsimp only
      rw [hp, if_neg hne, hin.strlen_eq, Option.bind_some, hoff, if_pos hstart]

/-- One round of a loop that stays in the page. -/
theorem copyStringsLoop_round (hpage : PageOk page) (hoff : dest + offset = page + BitVec.ofNat 32 d)
    (hd : d ≤ pageSize) (hsize : s.size ≤ pageSize)
    (hv : VectorKept as page m.mem argv (s :: strs))
    (h : copyStringsLoop as dest (page + BitVec.ofNat 32 pageSize) base (argc + 1) argv
      (page + BitVec.ofNat 32 t) offset m = some (r, m'))
    (hin : InsidePage page m'.writes) :
    copyStringsLoop as dest (page + BitVec.ofNat 32 pageSize) base argc (argv + 4)
        (page + BitVec.ofNat 32 (t + 4)) (offset + BitVec.ofNat 32 s.size)
        (place m page base (page + BitVec.ofNat 32 t) d s) = some (r, m') ∧
      VectorKept as page (place m page base (page + BitVec.ofNat 32 t) d s).mem (argv + 4) strs ∧
      dest + (offset + BitVec.ofNat 32 s.size) = page + BitVec.ofNat 32 (d + s.size) := by
  rw [copyStringsLoop_cons hpage hoff hd hsize hv.vector, add_assoc page,
    show (4 : BitVec 32) = BitVec.ofNat 32 4 from rfl, ← BitVec.ofNat_add] at h
  refine ⟨h, ?_, ?_⟩
  · refine hv.tail.congr fun a ha => mem_eq_of_inside extends_place ?_ ha
    exact hin.mono (extends_copyStringsLoop h).grows
  · rw [← add_assoc, hoff, add_assoc, ← BitVec.ofNat_add]

/-- Below the place for the texts, only the slots are written. -/
theorem copyStringsLoop_below (hpage : PageOk page) (hoff : dest + offset = page + BitVec.ofNat 32 d)
    (hd : d < 2 * pageSize) (hsize : ∀ s ∈ strs, s.size < pageSize) (ht : t + 4 * strs.length ≤ pageSize)
    (hargc : strs.length ≤ argc) (hv : VectorKept as page m.mem argv strs)
    (h : copyStringsLoop as dest (page + BitVec.ofNat 32 pageSize) base argc argv
      (page + BitVec.ofNat 32 t) offset m = some (r, m'))
    (hin : InsidePage page m'.writes) (ha : (a - page).toNat < d)
    (hslot : (a - page).toNat < t ∨ t + 4 * strs.length ≤ (a - page).toNat) : m'.mem a = m.mem a := by
  induction strs generalizing argc argv offset d t m with
  | nil =>
      rw [copyStringsLoop_nil hv.vector] at h
      rw [(Prod.mk.inj (Option.some.inj h)).2]
  | cons s strs ih =>
      by_cases hfull : pageSize < d
      · obtain ⟨r', hr⟩ := copyStringsLoop_full base (page + BitVec.ofNat 32 t) hpage hoff
          hfull hd hv.vector hargc
        rw [hr] at h
        rw [(Prod.mk.inj (Option.some.inj h)).2]
      rw [List.length_cons] at ht hargc hslot
      rw [List.forall_mem_cons] at hsize
      obtain ⟨argc, rfl⟩ := Nat.exists_eq_add_of_le' (Nat.one_le_of_lt hargc)
      obtain ⟨h, hv, hoff⟩ :=
        copyStringsLoop_round hpage hoff (not_lt.mp hfull) hsize.1.le hv h hin
      rw [ih hoff (by omega) hsize.2 (by omega) (by omega) hv h (by omega) (by omega)]
      exact place_below ha (by omega) (by omega) (by omega) (by omega)

theorem slots_cons {start : ℕ} :
    (∀ i (h : i < (s :: strs).length), SlotRight mem page base (page + BitVec.ofNat 32 (start + 4 * i)) table
        ((s :: strs).get ⟨i, h⟩)) ↔
      SlotRight mem page base (page + BitVec.ofNat 32 start) table s ∧
        ∀ i (h : i < strs.length), SlotRight mem page base (page + BitVec.ofNat 32 (start + 4 + 4 * i)) table
          (strs.get ⟨i, h⟩) := by
  constructor
  · intro h
    refine ⟨h 0 (Nat.succ_pos _), fun i hi => ?_⟩
    rw [add_assoc start, ← mul_one_add 4 i, add_comm 1 i]
    exact h (i + 1) (Nat.succ_lt_succ hi)
  · rintro ⟨hs, h⟩ i hi
    cases i with
    | zero => exact hs
    | succ i =>
        have hrest := h i (Nat.lt_of_succ_lt_succ hi)
        rwa [add_assoc start, ← mul_one_add 4 i, add_comm 1 i] at hrest

theorem textSize_cons : textSize (s :: strs) = s.size + textSize strs := List.sum_cons

/-- Once a slot is written, it has the offset that its text was meant for. -/
theorem slot_of_round (hpage : PageOk page) (hoff : dest + offset = page + BitVec.ofNat 32 d)
    (hd : d ≤ pageSize) (hsize : ∀ s' ∈ s :: strs, s'.size < pageSize)
    (ht : t + 4 * (s :: strs).length ≤ pageSize) (htd : t + 4 ≤ d) (hargc : (s :: strs).length ≤ argc + 1)
    (hv : VectorKept as page m.mem argv (s :: strs))
    (h : copyStringsLoop as dest (page + BitVec.ofNat 32 pageSize) base (argc + 1) argv
      (page + BitVec.ofNat 32 t) offset m = some (r, m'))
    (hin : InsidePage page m'.writes) :
    readWord m'.mem (page + BitVec.ofNat 32 t) = base + BitVec.ofNat 32 (d % pageSize) := by
  rw [List.forall_mem_cons] at hsize
  rw [List.length_cons] at ht hargc
  obtain ⟨h, hv, hoff⟩ := copyStringsLoop_round hpage hoff hd hsize.1.le hv h hin
  rw [← readWord_place m page base (page + BitVec.ofNat 32 t) d s]
  refine readWord_offset_congr (by rw [pageSize] at *; omega) fun a ha ha' => ?_
  exact copyStringsLoop_below hpage hoff (by omega) hsize.2 (by omega) (by omega) hv h hin (by omega)
    (by omega)

/-- If all slots are right, then the strings fit. -/
theorem fits_of_copyStringsLoop (hpage : PageOk page) (hoff : dest + offset = page + BitVec.ofNat 32 d)
    (hd : d ≤ pageSize) (hsize : ∀ s ∈ strs, s.size < pageSize) (ht : t + 4 * strs.length ≤ d)
    (htable : 0 < table) (hargc : strs.length ≤ argc) (hv : VectorKept as page m.mem argv strs)
    (hzero : ∀ o, d ≤ o → o < pageSize → m.mem (page + BitVec.ofNat 32 o) = 0)
    (h : copyStringsLoop as dest (page + BitVec.ofNat 32 pageSize) base argc argv
      (page + BitVec.ofNat 32 t) offset m = some (r, m'))
    (hin : InsidePage page m'.writes)
    (hright : ∀ i (h : i < strs.length), SlotRight m'.mem page base (page + BitVec.ofNat 32 (t + 4 * i)) table
      (strs.get ⟨i, h⟩)) :
    d + textSize strs ≤ pageSize ∧ ∀ s ∈ strs, s.Taken := by
  induction strs generalizing argc argv offset d t m with
  | nil => exact ⟨hd, fun _ hs => absurd hs List.not_mem_nil⟩
  | cons s strs ih =>
      have hps : pageSize = 4096 := rfl
      rw [slots_cons] at hright
      obtain ⟨⟨off, hslot, htab, hend, htext⟩, hright⟩ := hright
      obtain ⟨argc, rfl⟩ := Nat.exists_eq_add_of_le' (Nat.one_le_of_lt hargc)
      rw [slot_of_round hpage hoff hd hsize (by omega) (by rw [List.length_cons] at ht; omega) hargc hv h hin]
        at hslot
      have hmod := Nat.mod_lt d (show 0 < pageSize by decide)
      obtain rfl := add_ofNat_inj (by omega) (by omega) hslot
      have hlt : d ≠ pageSize := by
        rintro rfl
        rw [Nat.mod_self] at htab
        omega
      rw [Nat.mod_eq_of_lt (by omega)] at hend htext
      rw [List.length_cons] at ht hargc
      rw [List.forall_mem_cons] at hsize
      obtain ⟨h, hv, hoff⟩ := copyStringsLoop_round hpage hoff hd hsize.1.le hv h hin
      have hplace : HasBytes (place m page base (page + BitVec.ofNat 32 t) d s).mem
          (page + BitVec.ofNat 32 d) s.text := by
        refine htext.offset_congr (by rw [s.length_text]; omega) fun a ha ha' => ?_
        rw [s.length_text] at ha'
        exact (copyStringsLoop_below hpage hoff (by omega) hsize.2 (by omega) (by omega) hv h hin (by omega)
          (by omega)).symm
      have htaken := (hasBytes_place base (hzero d le_rfl (by omega)) (by omega) hend).mp hplace
      obtain ⟨hfit, htakens⟩ := ih hoff hend hsize.2 (by omega) (by omega) hv (fun o ho ho' => by
        rw [place_above (by rw [offset_add (by omega)]; omega) (by omega)]
        exact hzero o (by omega) ho') h hright
      rw [textSize_cons]
      exact ⟨by omega, List.forall_mem_cons.mpr ⟨htaken, htakens⟩⟩

/-- If the strings fit, then all slots are right. -/
theorem copyStringsLoop_fits (hpage : PageOk page) (hoff : dest + offset = page + BitVec.ofNat 32 d)
    (ht : t + 4 * strs.length ≤ d) (htable : table ≤ d) (hargc : strs.length ≤ argc)
    (hv : VectorKept as page m.mem argv strs)
    (hzero : ∀ o, d ≤ o → o < pageSize → m.mem (page + BitVec.ofNat 32 o) = 0)
    (hin : InsidePage page m.writes) (hfit : d + textSize strs ≤ pageSize) (htaken : ∀ s ∈ strs, s.Taken) :
    ∃ m', copyStringsLoop as dest (page + BitVec.ofNat 32 pageSize) base argc argv
        (page + BitVec.ofNat 32 t) offset m = some (0, m') ∧ InsidePage page m'.writes ∧
      ∀ i (h : i < strs.length), SlotRight m'.mem page base (page + BitVec.ofNat 32 (t + 4 * i)) table
        (strs.get ⟨i, h⟩) := by
  induction strs generalizing argc argv offset d t m with
  | nil => exact ⟨m, copyStringsLoop_nil hv.vector, hin, fun i hi => absurd hi (Nat.not_lt_zero i)⟩
  | cons s strs ih =>
      have hps : pageSize = 4096 := rfl
      rw [textSize_cons] at hfit
      have hpos := s.size_pos
      have hsize : ∀ s' ∈ s :: strs, s'.size < pageSize := by
        intro s' hs'
        have hle : s'.size ≤ textSize (s :: strs) := List.single_le_sum (by simp) _ (List.mem_map_of_mem hs')
        rw [textSize_cons] at hle
        rw [List.length_cons] at ht
        omega
      obtain ⟨argc, rfl⟩ := Nat.exists_eq_add_of_le' (Nat.one_le_of_lt hargc)
      rw [List.length_cons] at ht hargc
      rw [List.forall_mem_cons] at hsize htaken
      have hin' : InsidePage page (place m page base (page + BitVec.ofNat 32 t) d s).writes :=
        (insidePage_place (by omega) (by omega) hsize.1.le).mpr ⟨fun _ => by omega, hin⟩
      have hoff' : dest + (offset + BitVec.ofNat 32 s.size) = page + BitVec.ofNat 32 (d + s.size) := by
        rw [← add_assoc, hoff, add_assoc, ← BitVec.ofNat_add]
      have hv' : VectorKept as page (place m page base (page + BitVec.ofNat 32 t) d s).mem (argv + 4) strs :=
        hv.tail.congr fun a ha => mem_eq_of_inside extends_place hin' ha
      have hzero' : ∀ o, d + s.size ≤ o → o < pageSize →
          (place m page base (page + BitVec.ofNat 32 t) d s).mem (page + BitVec.ofNat 32 o) = 0 := by
        intro o ho ho'
        rw [place_above (by rw [offset_add (by omega)]; omega) (by omega)]
        exact hzero o (by omega) ho'
      have hplace := (hasBytes_place base (hzero d le_rfl (by omega)) (t := t) (by omega)
        (show d + s.size ≤ pageSize by omega)).mpr htaken.1
      obtain ⟨m', h, hin₂, hright⟩ := ih hoff' (show t + 4 + 4 * strs.length ≤ d + s.size by omega)
        (by omega) (show strs.length ≤ argc by omega) hv' hzero' hin' (by omega) htaken.2
      have hbelow {a : BitVec 32} (ha : (a - page).toNat < d + s.size)
          (hslot : (a - page).toNat < t + 4 ∨ t + 4 + 4 * strs.length ≤ (a - page).toNat) :=
        copyStringsLoop_below hpage hoff' (by omega) hsize.2 (by omega) (by omega) hv' h hin₂ ha hslot
      refine ⟨m', ?_, hin₂, slots_cons.mpr ⟨⟨d, ?_, htable, by omega, ?_⟩, hright⟩⟩
      · rw [copyStringsLoop_cons hpage hoff (by omega) hsize.1.le hv.vector, add_assoc page,
          show (4 : BitVec 32) = BitVec.ofNat 32 4 from rfl, ← BitVec.ofNat_add]
        exact h
      · have hslot := readWord_place m page base (page + BitVec.ofNat 32 t) d s
        rw [Nat.mod_eq_of_lt (by omega)] at hslot
        rw [← hslot]
        exact readWord_offset_congr (by omega) fun a ha ha' => hbelow (by omega) (by omega)
      · refine hplace.offset_congr (by rw [s.length_text]; omega) fun a ha ha' => ?_
        rw [s.length_text] at ha'
        exact hbelow (by omega) (by omega)

/-- The loop runs to the end of the page that its first string is put in. -/
theorem pageAlign_page (hpage : page.toNat % pageSize = 0) (hd : 0 < d) (hd' : d ≤ pageSize) :
    pageAlign (page + BitVec.ofNat 32 d) = page + BitVec.ofNat 32 pageSize := by
  apply BitVec.eq_of_toNat_eq
  rw [pageAlign, toNat_pageBase, BitVec.toNat_add, BitVec.toNat_add, BitVec.toNat_add, BitVec.toNat_ofNat,
    BitVec.toNat_ofNat, BitVec.toNat_ofNat]
  rw [pageSize] at *
  have := page.isLt
  omega

/-- In the last page, no string is copied. -/
theorem copyStringsLoop_last (hpage : page.toNat % pageSize = 0) (hlast : ¬ page.toNat + pageSize < 2 ^ 32)
    (hd : 0 < d) (hd' : d < pageSize) (hv : HasVector as m.mem argv (s :: strs))
    (hargc : (s :: strs).length ≤ argc) :
    copyStringsLoop as (page + BitVec.ofNat 32 d) (page + BitVec.ofNat 32 pageSize) base argc argv p0 0 m =
      some (-e2BIG, m) := by
  obtain ⟨hp, hne, hin, _⟩ := hv
  obtain ⟨argc, rfl⟩ := Nat.exists_eq_add_of_le' (Nat.one_le_of_lt hargc)
  have hstart : page + BitVec.ofNat 32 d + 0 > page + BitVec.ofNat 32 pageSize := by
    have hlt := page.isLt
    rw [pageSize] at hpage hlast hd' ⊢
    rw [gt_iff_lt, BitVec.lt_def, add_zero, toNat_add_ofNat (show page.toNat + d < 2 ^ 32 by omega),
      BitVec.toNat_add, BitVec.toNat_ofNat]
    omega
  rw [copyStringsLoop]
  dsimp only
  rw [hp, if_neg hne, hin.strlen_eq, Option.bind_some, if_pos hstart]

theorem size_lt_of_slots (htable : 0 < table)
    (hright : ∀ i (h : i < strs.length), SlotRight mem page base (page + BitVec.ofNat 32 (t + 4 * i)) table
      (strs.get ⟨i, h⟩)) : ∀ s ∈ strs, s.size < pageSize := by
  intro s hs
  obtain ⟨⟨i, hi⟩, rfl⟩ := List.get_of_mem hs
  obtain ⟨off, _, hoff, hend, _⟩ := hright i hi
  omega

/-- A vector that reaches its page fits. -/
theorem fits_of_slots (hne : page ≠ 0) (hpage : page.toNat % pageSize = 0)
    (hbase : base.toNat + pageSize < 2 ^ 32) (hbase' : base ≠ 0) (hd : d < pageSize) (htd : t + 4 ≤ d)
    (htable : 0 < table) (hargc : strs.length ≤ argc) (hv : VectorKept as page m.mem argv strs)
    (hzero : ∀ o, d ≤ o → o < pageSize → m.mem (page + BitVec.ofNat 32 o) = 0)
    (hslot : strs ≠ [] → readWord m.mem (page + BitVec.ofNat 32 t) = 0)
    (h : copyStringsLoop as (page + BitVec.ofNat 32 d) (page + BitVec.ofNat 32 pageSize) base argc argv
      (page + BitVec.ofNat 32 t) 0 m = some (r, m'))
    (hin : InsidePage page m'.writes)
    (hright : ∀ i (h : i < strs.length), SlotRight m'.mem page base (page + BitVec.ofNat 32 (t + 4 * i)) table
      (strs.get ⟨i, h⟩))
    (hbound : PageOk page → t + 4 * strs.length ≤ d) : VectorFits page d strs := by
  by_cases hnil : strs = []
  · exact .inl hnil
  have hnot : page.toNat + pageSize < 2 ^ 32 := by
    by_contra hlast
    obtain ⟨s, strs, rfl⟩ := List.exists_cons_of_ne_nil hnil
    rw [copyStringsLoop_last hpage hlast (by omega) hd hv.vector hargc] at h
    obtain rfl := (Prod.mk.inj (Option.some.inj h)).2
    obtain ⟨off, hword, _, hoff, _⟩ := (slots_cons.mp hright).1
    have hzero := congrArg BitVec.toNat ((hslot hnil).symm.trans hword)
    rw [toNat_add_ofNat (by omega)] at hzero
    have h0 : (0 : BitVec 32).toNat = 0 := rfl
    exact hbase' (BitVec.eq_of_toNat_eq (by omega))
  have hok : PageOk page := ⟨hne, hpage, hnot⟩
  exact .inr ⟨hnot, fits_of_copyStringsLoop hok (add_zero _) hd.le (size_lt_of_slots htable hright) (hbound hok) htable
    hargc hv hzero h hin hright⟩

/-- A vector that fits reaches its page. -/
theorem slots_of_fits (base : BitVec 32) (table : ℕ) (hne : page ≠ 0) (hpage : page.toNat % pageSize = 0) (ht : t + 4 * strs.length ≤ d)
    (htable : table ≤ d) (hargc : strs.length ≤ argc) (hv : VectorKept as page m.mem argv strs)
    (hzero : ∀ o, d ≤ o → o < pageSize → m.mem (page + BitVec.ofNat 32 o) = 0)
    (hin : InsidePage page m.writes) (hfits : VectorFits page d strs) :
    ∃ m', copyStringsLoop as (page + BitVec.ofNat 32 d) (page + BitVec.ofNat 32 pageSize) base argc argv
        (page + BitVec.ofNat 32 t) 0 m = some (0, m') ∧ InsidePage page m'.writes ∧
      ∀ i (h : i < strs.length), SlotRight m'.mem page base (page + BitVec.ofNat 32 (t + 4 * i)) table
        (strs.get ⟨i, h⟩) := by
  cases hfits with
  | inl hnil =>
      subst hnil
      exact ⟨m, copyStringsLoop_nil hv.vector, hin, fun i hi => absurd hi (Nat.not_lt_zero i)⟩
  | inr hfits =>
      obtain ⟨hlast, hfit, htaken⟩ := hfits
      exact copyStringsLoop_fits ⟨hne, hpage, hlast⟩ (add_zero _) ht htable hargc hv hzero hin hfit htaken

/-! ## The pages -/

theorem memset_page_in (h : InPage page a) : memset mem page 0 4096 a = 0 := by
  rw [memset, if_pos (show a - page < 4096 from h)]

theorem memset_page_out (h : ¬ InPage page a) : memset mem page 0 4096 a = mem a := by
  rw [memset, if_neg (show ¬ a - page < 4096 from h)]

theorem inPage_add {o : ℕ} (ho : o < pageSize) : InPage page (page + BitVec.ofNat 32 o) := by
  rw [InPage, offset_add (by rw [pageSize] at ho; omega)]
  exact ho

/-- The slots and the texts of a vector are in its page. -/
theorem VectorRight.congr {start : ℕ} (h : VectorRight mem page base start strs)
    (hlen : start + 4 * strs.length ≤ pageSize) (heq : ∀ a, InPage page a → mem' a = mem a) :
    VectorRight mem' page base start strs := by
  have hps : pageSize = 4096 := rfl
  intro i hi
  obtain ⟨off, hword, hoff, hend, htext⟩ := h i hi
  refine ⟨off, ?_, hoff, hend, ?_⟩
  · rw [← hword]
    exact readWord_offset_congr (by omega) fun a ha ha' => heq a (show (a - page).toNat < pageSize by omega)
  · refine htext.offset_congr (by rw [ArgString.length_text]; omega) fun a ha ha' => ?_
    rw [ArgString.length_text] at ha'
    exact heq a (show (a - page).toNat < pageSize by omega)

end

/-! ### The environment -/

section

variable {mem : Memory} {page argv envp : BitVec 32} {as : AddrSpace} {name : ArgString}
  {strs args envs : List ArgString} {r : ℤ} {m m' : LoggedMem 32} {n : ℕ}

theorem setupEnvp_eq (hne : page ≠ 0) (hpage : page.toNat % pageSize = 0) (hv : HasVector as mem envp envs)
    (hlen : envs.length ≤ 65) :
    setupEnvp as mem page envp =
      (copyStringsLoop as (page + BitVec.ofNat 32 256) (page + BitVec.ofNat 32 pageSize) envBase envs.length envp
        (page + BitVec.ofNat 32 0) 0 ⟨memset mem page 0 4096, []⟩).map fun r => (0, r.2) := by
  have hcount := count_eq hv
  rw [if_pos hlen] at hcount
  rw [setupEnvp, hcount, if_neg (by omega), if_neg hne, copyStrings,
    show page + 64 * 4 = page + BitVec.ofNat 32 256 from rfl, pageAlign_page hpage (by decide) (by decide),
    Int.toNat_natCast]
  simp only [BitVec.add_zero]

/-- The environment is written to its page. -/
theorem setupEnvp_outside (hne : page ≠ 0) (hpage : page.toNat % pageSize = 0) (hv : HasVector as mem envp envs)
    (hlen : envs.length ≤ 65) (h : setupEnvp as mem page envp = some (r, m')) :
    r = 0 ∧ (InsidePage page m'.writes → ∀ a, ¬ InPage page a → m'.mem a = mem a) := by
  rw [setupEnvp_eq hne hpage hv hlen, Option.map_eq_some_iff] at h
  obtain ⟨⟨r', m₁⟩, hloop, heq⟩ := h
  obtain ⟨rfl, rfl⟩ := Prod.mk.inj heq
  refine ⟨rfl, fun hin a ha => ?_⟩
  rw [mem_eq_of_inside (extends_copyStringsLoop hloop) hin ha]
  exact memset_page_out ha

theorem setupEnvp_right_iff (hne : page ≠ 0) (hpage : page.toNat % pageSize = 0)
    (hv : VectorKept as page mem envp envs) (hlen : envs.length ≤ 65) :
    (∃ r m', setupEnvp as mem page envp = some (r, m') ∧ InsidePage page m'.writes ∧
      VectorRight m'.mem page envBase 0 envs) ↔ envs.length ≤ 64 ∧ VectorFits page 256 envs := by
  have hv₀ : VectorKept as page (memset mem page 0 4096) envp envs := hv.congr fun a ha => memset_page_out ha
  have hzero {o : ℕ} (ho : o < pageSize) : memset mem page 0 4096 (page + BitVec.ofNat 32 o) = 0 :=
    memset_page_in (inPage_add ho)
  have hps : pageSize = 4096 := rfl
  rw [setupEnvp_eq hne hpage hv.vector hlen]
  constructor
  · rintro ⟨r, m', h, hin, hright⟩
    obtain ⟨⟨r', m₁⟩, hloop, heq⟩ := Option.map_eq_some_iff.mp h
    obtain ⟨rfl, rfl⟩ := Prod.mk.inj heq
    by_cases hnil : envs = []
    · exact ⟨by rw [hnil]; exact Nat.zero_le _, .inl hnil⟩
    have hpos := List.length_pos_of_ne_nil hnil
    have hsize := size_lt_of_slots (show 0 < 0 + 4 * envs.length by omega) hright
    -- The first slot is written before the table can reach the strings.
    have hbound (hok : PageOk page) : 0 + 4 * envs.length ≤ 256 := by
      obtain ⟨s, strs, rfl⟩ := List.exists_cons_of_ne_nil hnil
      obtain ⟨off, hword, hoff, _⟩ := hright 0 hpos
      have hslot := slot_of_round hok (add_zero _) (by omega) hsize (by omega) (by omega) le_rfl hv₀ hloop hin
      obtain rfl := add_ofNat_inj (by decide) (by omega) (hslot.symm.trans hword)
      exact hoff
    have hfits := fits_of_slots hne hpage (by decide) (by decide) (by omega) (by omega) (by omega) le_rfl hv₀
      (fun o _ ho => hzero ho) (fun _ => readWord_zero fun o _ ho => hzero (by omega)) hloop hin hright hbound
    have hbound := hbound ⟨hne, hpage, (hfits.resolve_left hnil).1⟩
    exact ⟨by omega, hfits⟩
  · rintro ⟨hle, hfits⟩
    obtain ⟨m', hloop, hin, hright⟩ := slots_of_fits (m := ⟨memset mem page 0 4096, []⟩)
      (t := 0) envBase (0 + 4 * envs.length) hne hpage
      (show 0 + 4 * envs.length ≤ 256 by omega) (by omega) le_rfl hv₀ (fun o _ ho => hzero ho)
      (fun w hw => absurd hw List.not_mem_nil) hfits
    rw [hloop]
    exact ⟨0, m', rfl, hin, hright⟩

/-! ### The arguments -/

/-- `strncpy` reads a string up to its end. -/
theorem takeWhile_bytes {bytes : List (BitVec 8)} {a : BitVec 32} (hbytes : 0#8 ∉ bytes)
    (h : HasBytes mem a (bytes ++ [0])) (hn : bytes.length ≤ n) :
    ((List.range n).map fun i => mem (a + BitVec.ofNat 32 i)).takeWhile (· ≠ 0) = bytes := by
  induction bytes generalizing a n with
  | nil =>
      cases n with
      | zero => rfl
      | succ n =>
          have h0 : mem (a + BitVec.ofNat 32 0) = 0 := by simpa using (hasBytes_cons.mp h).1
          rw [List.range_succ_eq_map, List.map_cons, List.takeWhile_cons, if_neg (by simpa using h0)]
  | cons x bytes ih =>
      obtain ⟨hx, h⟩ := hasBytes_cons.mp h
      rw [List.mem_cons, not_or] at hbytes
      obtain ⟨n, rfl⟩ := Nat.exists_eq_add_of_le' (Nat.one_le_of_lt hn)
      have h0 : mem (a + BitVec.ofNat 32 0) = x := by simpa using hx
      have hrest := ih hbytes.2 h (Nat.le_of_succ_le_succ hn)
      simp only [add_one_add] at hrest
      rw [List.range_succ_eq_map, List.map_cons, List.map_map, List.takeWhile_cons, h0,
        if_pos (by simpa using Ne.symm hbytes.1)]
      exact congrArg _ hrest

/-- The name is copied with its terminator. -/
theorem strncpy_eq (hname : name.In as m.mem) (hlen : name.bytes.length ≤ n) (hn : 0 < n) (dest : BitVec 32) :
    strncpy m dest name.addr n = m.put dest (name.text ++ List.replicate (n - name.size) 0) := by
  rw [strncpy, takeWhile_bytes name.noNul hname.1 hlen, if_neg hn.ne', ArgString.text, ArgString.size]
  congr 1
  split
  · rename_i hlt
    obtain ⟨k, hk⟩ := Nat.exists_eq_add_of_lt hlt
    rw [show n - name.bytes.length = k + 1 by omega, show n - (name.bytes.length + 1) = k by omega,
      List.append_assoc]
    rfl
  · rw [Nat.sub_eq_zero_of_le (by omega)]
    exact (List.append_nil _).symm

/-- What is in the page when the arguments are copied. -/
structure ArgvStart (mem : Memory) (page : BitVec 32) (name : ArgString) (m : LoggedMem 32) : Prop where
  inside : InsidePage page m.writes
  outside : ∀ a, ¬ InPage page a → m.mem a = mem a
  zero : ∀ o, 260 + name.size ≤ o → o < pageSize → m.mem (page + BitVec.ofNat 32 o) = 0
  table : ∀ o, 8 ≤ o → o < 260 → m.mem (page + BitVec.ofNat 32 o) = 0
  slot : readWord m.mem (page + BitVec.ofNat 32 4) = argBase + BitVec.ofNat 32 260
  text : HasBytes m.mem (page + BitVec.ofNat 32 260) name.text

theorem setupArgv_eq (hne : page ≠ 0) (hpage : page.toNat % pageSize = 0)
    (hname : ∀ mem', (∀ a, ¬ InPage page a → mem' a = mem a) → name.In as mem')
    (hlen : name.bytes.length ≤ procNameMax) (hv : HasVector as mem argv args) (hargs : args.length ≤ 65) :
    ∃ m, ArgvStart mem page name m ∧
      setupArgv as mem page argv name.addr =
        (copyStringsLoop as (page + BitVec.ofNat 32 (260 + name.size)) (page + BitVec.ofNat 32 pageSize) argBase
          (args.length + 1) argv (page + BitVec.ofNat 32 8) 0 m).map fun r => (0, r.2) := by
  have hps : pageSize = 4096 := rfl
  have hmax : procNameMax = 32 := rfl
  have hsize : name.size ≤ 33 := Nat.succ_le_succ hlen
  have hpos := name.size_pos
  have hcount := count_eq hv
  rw [if_pos hargs] at hcount
  set w₁ := wordBytes (BitVec.ofInt 32 ((args.length : ℤ) + 1)) with hw₁
  set w₂ := wordBytes (argBase + BitVec.ofNat 32 260) with hw₂
  set data := name.text ++ List.replicate (procNameMax - name.size) 0 with hdata
  have hdlen : data.length ≤ 33 := by
    rw [hdata, List.length_append, List.length_replicate, name.length_text]
    omega
  set m₀ : LoggedMem 32 := ⟨memset mem page 0 4096, []⟩
  set m₁ := m₀.put (page + BitVec.ofNat 32 0) w₁
  set m₂ := m₁.put (page + BitVec.ofNat 32 260) data
  set m₃ := m₂.put (page + BitVec.ofNat 32 4) w₂
  have hinside₁ : InsidePage page m₁.writes :=
    (insidePage_word (by omega)).mpr fun w hw => absurd hw List.not_mem_nil
  have hinside : InsidePage page m₃.writes :=
    (insidePage_word (by omega)).mpr ((insidePage_cons (by omega) rfl).mpr ⟨fun _ => by omega, hinside₁⟩)
  have houtside₁ : ∀ a, ¬ InPage page a → m₁.mem a = mem a := fun a ha =>
    (mem_eq_of_inside (m₀.extends_put _ _) hinside₁ ha).trans (memset_page_out ha)
  have hzero {o : ℕ} (ho : o < pageSize) : m₀.mem (page + BitVec.ofNat 32 o) = 0 := memset_page_in (inPage_add ho)
  have hoffset {o : ℕ} (ho : o < pageSize) : (page + BitVec.ofNat 32 o - page).toNat = o :=
    offset_add (by omega)
  have houtside : ∀ a, ¬ InPage page a → m₃.mem a = mem a := fun a ha =>
    (mem_eq_of_inside ((m₁.extends_put _ _).trans (m₂.extends_put _ _)) hinside ha).trans (houtside₁ a ha)
  refine ⟨m₃, ⟨hinside, houtside, fun o ho ho' => ?_, fun o ho ho' => ?_, LoggedMem.readWord_put (by decide) _, ?_⟩, ?_⟩
  · rw [LoggedMem.put_above (by rw [hoffset (by omega), length_wordBytes]; omega),
      LoggedMem.put_at (by omega) (by omega),
      List.getD_append_right _ _ _ _ (by rw [name.length_text]; omega),
      LoggedMem.put_above (by rw [hoffset (by omega), length_wordBytes]; omega), hzero (by omega)]
    exact getD_replicate_zero _ _
  · rw [LoggedMem.put_above (by rw [hoffset (by omega), length_wordBytes]; omega),
      LoggedMem.put_below (by rw [hoffset (by omega)]; exact ho') (by omega),
      LoggedMem.put_above (by rw [hoffset (by omega), length_wordBytes]; omega)]
    exact hzero (by omega)
  · have htext : HasBytes m₂.mem (page + BitVec.ofNat 32 260) name.text :=
      (LoggedMem.hasBytes_put (by rw [← hdata]; omega)).append_left
    refine htext.offset_congr (by rw [name.length_text]; omega) fun a ha ha' => ?_
    exact LoggedMem.put_above (by rw [length_wordBytes]; omega)
  · have hdest : page + BitVec.ofNat 32 260 + BitVec.ofNat 32 name.bytes.length + 1 =
        page + BitVec.ofNat 32 (260 + name.size) := by
      rw [ArgString.size]
      bv_omega
    have h260 : page + 4 + 64 * 4 = page + BitVec.ofNat 32 260 := add_assoc _ _ _
    have h8 : page + 4 + 4 = page + BitVec.ofNat 32 8 := add_assoc _ _ _
    have hput : LoggedMem.put ⟨memset mem page 0 4096, []⟩ page w₁ = m₁ :=
      congrArg (fun d => m₀.put d w₁) (BitVec.add_zero page).symm
    have hm₃ : m₂.put (page + 4) w₂ = m₃ := rfl
    have hname₃ : name.In as m₃.mem := hname _ houtside
    rw [setupArgv]
    dsimp only
    rw [hcount, if_neg (by omega), if_neg hne, ← hw₁, hput, h260, strncpy_eq (hname _ houtside₁) hlen (by decide),
      and_0xFFF hpage, Nat.mod_eq_of_lt (by decide), ← hw₂, ← hdata, hm₃, hname₃.strlen_eq, Option.bind_some, hdest,
      h8, copyStrings, pageAlign_page hpage (by omega) (by omega)]
    rfl

/-- The arguments are written to their page. -/
theorem setupArgv_outside (hne : page ≠ 0) (hpage : page.toNat % pageSize = 0)
    (hname : ∀ mem', (∀ a, ¬ InPage page a → mem' a = mem a) → name.In as mem')
    (hlen : name.bytes.length ≤ procNameMax) (hv : HasVector as mem argv args) (hargs : args.length ≤ 65)
    (h : setupArgv as mem page argv name.addr = some (r, m')) :
    r = 0 ∧ (InsidePage page m'.writes → ∀ a, ¬ InPage page a → m'.mem a = mem a) := by
  obtain ⟨m, hstart, heq⟩ := setupArgv_eq hne hpage hname hlen hv hargs
  rw [heq, Option.map_eq_some_iff] at h
  obtain ⟨⟨r', m₁⟩, hloop, heq⟩ := h
  obtain ⟨rfl, rfl⟩ := Prod.mk.inj heq
  refine ⟨rfl, fun hin a ha => ?_⟩
  rw [mem_eq_of_inside (extends_copyStringsLoop hloop) hin ha]
  exact hstart.outside a ha

theorem setupArgv_right_iff (hne : page ≠ 0) (hpage : page.toNat % pageSize = 0)
    (hname : ∀ mem', (∀ a, ¬ InPage page a → mem' a = mem a) → name.In as mem')
    (hlen : name.bytes.length ≤ procNameMax) (hv : VectorKept as page mem argv args) (hargs : args.length ≤ 65) :
    (∃ r m', setupArgv as mem page argv name.addr = some (r, m') ∧ InsidePage page m'.writes ∧
      VectorRight m'.mem page argBase 4 (name :: args)) ↔
      args.length ≤ 63 ∧ VectorFits page (260 + name.size) args := by
  have hps : pageSize = 4096 := rfl
  have hmax : procNameMax = 32 := rfl
  have hsize : name.size ≤ 33 := Nat.succ_le_succ hlen
  have hpos := name.size_pos
  obtain ⟨m, hstart, heq⟩ := setupArgv_eq hne hpage hname hlen hv.vector hargs
  have hv₀ : VectorKept as page m.mem argv args := hv.congr hstart.outside
  -- The name is below all that the loop writes, and its slot too.
  have hbelow {r : ℤ} {m' : LoggedMem 32} (hok : PageOk page) (hsizes : ∀ s ∈ args, s.size < pageSize)
      (hloop : copyStringsLoop as (page + BitVec.ofNat 32 (260 + name.size)) (page + BitVec.ofNat 32 pageSize)
        argBase (args.length + 1) argv (page + BitVec.ofNat 32 8) 0 m = some (r, m'))
      (hin : InsidePage page m'.writes) {a : BitVec 32} (ha : (a - page).toNat < 260 + name.size)
      (hslot : (a - page).toNat < 8 ∨ 8 + 4 * args.length ≤ (a - page).toNat) : m'.mem a = m.mem a :=
    copyStringsLoop_below hok (add_zero _) (by omega) hsizes (by omega) (by omega) hv₀ hloop hin ha hslot
  rw [heq]
  constructor
  · rintro ⟨r, m', h, hin, hright⟩
    obtain ⟨⟨r', m₁⟩, hloop, heq⟩ := Option.map_eq_some_iff.mp h
    obtain ⟨rfl, rfl⟩ := Prod.mk.inj heq
    obtain ⟨⟨off, hword, hoff, _⟩, hright⟩ := slots_cons.mp hright
    rw [List.length_cons] at hoff
    have hbound (hok : PageOk page) : 4 + 4 * (args.length + 1) ≤ 260 := by
      have hsame : readWord m₁.mem (page + BitVec.ofNat 32 4) = readWord m.mem (page + BitVec.ofNat 32 4) :=
        readWord_offset_congr (by omega) fun a ha ha' =>
          hbelow hok (size_lt_of_slots (by omega) hright) hloop hin (by omega) (by omega)
      obtain rfl := add_ofNat_inj (by decide) (by omega) (hstart.slot.symm.trans (hsame.symm.trans hword))
      exact hoff
    by_cases hnil : args = []
    · exact ⟨by rw [hnil]; exact Nat.zero_le _, .inl hnil⟩
    have hargpos := List.length_pos_of_ne_nil hnil
    have hfits := fits_of_slots hne hpage (by decide) (by decide) (by omega) (by omega) (by omega) (by omega) hv₀
      hstart.zero (fun _ => readWord_zero fun o ho ho' => hstart.table o ho (by omega)) hloop hin hright
      fun hok => by have := hbound hok; omega
    have hbound := hbound ⟨hne, hpage, (hfits.resolve_left hnil).1⟩
    exact ⟨by omega, hfits⟩
  · rintro ⟨hle, hfits⟩
    obtain ⟨m', hloop, hin, hright⟩ := slots_of_fits (m := m) (t := 8) argBase (4 + 4 * (args.length + 1))
      hne hpage (show 8 + 4 * args.length ≤ 260 + name.size by omega) (by omega)
      (show args.length ≤ args.length + 1 by omega) hv₀ hstart.zero
      hstart.inside hfits
    have hsame {a : BitVec 32} (ha : (a - page).toNat < 260 + name.size)
        (hslot : (a - page).toNat < 8 ∨ 8 + 4 * args.length ≤ (a - page).toNat) : m'.mem a = m.mem a := by
      cases hfits with
      | inl hnil =>
          subst hnil
          rw [copyStringsLoop_nil hv₀.vector] at hloop
          rw [(Prod.mk.inj (Option.some.inj hloop)).2]
      | inr hfits =>
          exact hbelow ⟨hne, hpage, hfits.1⟩ (size_lt_of_slots (by omega) hright) hloop hin ha hslot
    rw [hloop]
    refine ⟨0, m', rfl, hin, slots_cons.mpr ⟨⟨260, ?_, ?_, by omega, ?_⟩, hright⟩⟩
    · rw [← hstart.slot]
      exact readWord_offset_congr (by omega) fun a ha ha' => hsame (by omega) (by omega)
    · rw [List.length_cons]
      omega
    · refine hstart.text.offset_congr (by rw [name.length_text]; omega) fun a ha ha' => ?_
      rw [name.length_text] at ha'
      exact hsame (by omega) (by omega)

end

/-! ## The call -/

section

variable {c : SetupCall} {mem : Memory} {a : BitVec 32} {r : ℤ} {m : LoggedMem 32}

theorem pages_disjoint {p q : BitVec 32} (hp : p.toNat % pageSize = 0) (hq : q.toNat % pageSize = 0)
    (hne : p ≠ q) (ha : InPage p a) : ¬ InPage q a := by
  intro ha'
  rw [InPage, BitVec.toNat_sub] at ha ha'
  rw [pageSize] at *
  have := p.isLt
  have := q.isLt
  have := a.isLt
  exact hne (BitVec.eq_of_toNat_eq (by omega))

theorem SetupCall.Valid.argvKept (hc : c.Valid) (hargv : c.argv ≠ 0) :
    VectorKept c.as c.argPage c.mem c.argv c.args :=
  fun mem hmem => (hc.kept mem fun a ha _ => hmem a ha).2.1 hargv

theorem SetupCall.Valid.envpKept (hc : c.Valid) (henvp : c.envp ≠ 0)
    (hmem : ∀ a, ¬ InPage c.argPage a → mem a = c.mem a) : VectorKept c.as c.envPage mem c.envp c.envs :=
  fun mem' hmem' => (hc.kept mem' fun a ha ha' => (hmem' a ha').trans (hmem a ha)).2.2 henvp

theorem SetupCall.Valid.accepted_iff (hc : c.Valid) :
    c.Accepted ↔ (c.argv ≠ 0 → c.args.length ≤ 65) ∧ (c.envp ≠ 0 → c.envs.length ≤ 65) :=
  and_congr (forall_congr' fun h => count_nonneg_iff (hc.argvKept h).vector)
    (forall_congr' fun h => count_nonneg_iff (hc.envpKept h fun _ _ => rfl).vector)

/-- The first part of the call. -/
def SetupCall.argvPart (c : SetupCall) : Option (ℤ × LoggedMem 32) :=
  if c.argv ≠ 0 then setupArgv c.as c.mem c.argPage c.argv c.name.addr else some (0, ⟨c.mem, []⟩)

/-- The second part of the call, with the memory that the first leaves. -/
def SetupCall.envpPart (c : SetupCall) (mem : Memory) : Option (ℤ × LoggedMem 32) :=
  if c.envp ≠ 0 then setupEnvp c.as mem c.envPage c.envp else some (0, ⟨mem, []⟩)

theorem SetupCall.Valid.argvPart_outside (hc : c.Valid) (hacc : c.argv ≠ 0 → c.args.length ≤ 65)
    (h : c.argvPart = some (r, m)) :
    r = 0 ∧ (InsidePage c.argPage m.writes → ∀ a, ¬ InPage c.argPage a → m.mem a = c.mem a) := by
  rw [argvPart] at h
  split at h
  · rename_i hargv
    exact setupArgv_outside hc.argPage.1 hc.argPage.2 (fun mem hmem => (hc.kept mem fun a ha _ => hmem a ha).1)
      hc.nameLen (hc.argvKept hargv).vector (hacc hargv) h
  · obtain ⟨rfl, rfl⟩ := Prod.mk.inj (Option.some.inj h)
    exact ⟨rfl, fun _ _ _ => rfl⟩

theorem SetupCall.Valid.argvPart_right_iff (hc : c.Valid) (hacc : c.argv ≠ 0 → c.args.length ≤ 65) :
    (∃ r m, c.argvPart = some (r, m) ∧ InsidePage c.argPage m.writes ∧
      (c.argv ≠ 0 → VectorRight m.mem c.argPage argBase 4 (c.name :: c.args))) ↔
      (c.argv ≠ 0 → c.args.length ≤ 63 ∧ VectorFits c.argPage (260 + c.name.size) c.args) := by
  rw [argvPart]
  by_cases hargv : c.argv ≠ 0
  · rw [if_pos hargv, imp_iff_right hargv]
    simp only [imp_iff_right hargv]
    exact setupArgv_right_iff hc.argPage.1 hc.argPage.2
      (fun mem hmem => (hc.kept mem fun a ha _ => hmem a ha).1) hc.nameLen (hc.argvKept hargv) (hacc hargv)
  · rw [if_neg hargv]
    refine iff_of_true ⟨0, _, rfl, ?_, fun h => absurd h hargv⟩ fun h => absurd h hargv
    exact fun w hw => absurd hw List.not_mem_nil

theorem SetupCall.Valid.envpPart_outside (hc : c.Valid) (hacc : c.envp ≠ 0 → c.envs.length ≤ 65)
    (hmem : ∀ a, ¬ InPage c.argPage a → mem a = c.mem a) (h : c.envpPart mem = some (r, m)) :
    r = 0 ∧ (InsidePage c.envPage m.writes → ∀ a, ¬ InPage c.envPage a → m.mem a = mem a) := by
  rw [envpPart] at h
  split at h
  · rename_i henvp
    exact setupEnvp_outside hc.envPage.1 hc.envPage.2 (hc.envpKept henvp hmem).vector (hacc henvp) h
  · obtain ⟨rfl, rfl⟩ := Prod.mk.inj (Option.some.inj h)
    exact ⟨rfl, fun _ _ _ => rfl⟩

theorem SetupCall.Valid.envpPart_right_iff (hc : c.Valid) (hacc : c.envp ≠ 0 → c.envs.length ≤ 65)
    (hmem : ∀ a, ¬ InPage c.argPage a → mem a = c.mem a) :
    (∃ r m, c.envpPart mem = some (r, m) ∧ InsidePage c.envPage m.writes ∧
      (c.envp ≠ 0 → VectorRight m.mem c.envPage envBase 0 c.envs)) ↔
      (c.envp ≠ 0 → c.envs.length ≤ 64 ∧ VectorFits c.envPage 256 c.envs) := by
  rw [envpPart]
  by_cases henvp : c.envp ≠ 0
  · rw [if_pos henvp, imp_iff_right henvp]
    simp only [imp_iff_right henvp]
    exact setupEnvp_right_iff hc.envPage.1 hc.envPage.2 (hc.envpKept henvp hmem) (hacc henvp)
  · rw [if_neg henvp]
    refine iff_of_true ⟨0, _, rfl, ?_, fun h => absurd h henvp⟩ fun h => absurd h henvp
    exact fun w hw => absurd hw List.not_mem_nil

/-- The arguments are not touched any more when the environment is written. -/
theorem SetupCall.Valid.args_congr (hc : c.Valid) {mem mem' : Memory} (hlen : c.args.length ≤ 65)
    (hmem : ∀ a, ¬ InPage c.envPage a → mem' a = mem a) :
    VectorRight mem' c.argPage argBase 4 (c.name :: c.args) ↔
      VectorRight mem c.argPage argBase 4 (c.name :: c.args) := by
  have hps : pageSize = 4096 := rfl
  have hsame (a : BitVec 32) (ha : InPage c.argPage a) : mem' a = mem a :=
    hmem a (pages_disjoint hc.argPage.2 hc.envPage.2 hc.pages ha)
  have hslots : 4 + 4 * (c.name :: c.args).length ≤ pageSize := by
    rw [List.length_cons]
    omega
  exact ⟨fun h => h.congr hslots fun a ha => (hsame a ha).symm, fun h => h.congr hslots hsame⟩

/-- The two parts, one after the other. -/
theorem SetupCall.Valid.setupArgEnv_eq_some (hc : c.Valid) (hacc : c.argv ≠ 0 → c.args.length ≤ 65) {e : ArgEnv} :
    setupArgEnv c.as c.mem c.argPage c.envPage c.argv c.envp c.name.addr = some e ↔
      ∃ m r m', c.argvPart = some (0, m) ∧ c.envpPart m.mem = some (r, m') ∧
        ⟨r, m'.mem, m.writes, m'.writes⟩ = e := by
  have heq : setupArgEnv c.as c.mem c.argPage c.envPage c.argv c.envp c.name.addr =
      c.argvPart.bind fun p => if p.1 < 0 then some ⟨p.1, p.2.mem, p.2.writes, []⟩
        else (c.envpPart p.2.mem).bind fun q => some ⟨q.1, q.2.mem, p.2.writes, q.2.writes⟩ := rfl
  rw [heq]
  constructor
  · intro h
    obtain ⟨⟨r, m⟩, h₁, h⟩ := Option.bind_eq_some_iff.mp h
    obtain ⟨rfl, _⟩ := hc.argvPart_outside hacc h₁
    rw [if_neg (lt_irrefl _)] at h
    obtain ⟨⟨r', m'⟩, h₂, h⟩ := Option.bind_eq_some_iff.mp h
    exact ⟨m, r', m', h₁, h₂, Option.some.inj h⟩
  · rintro ⟨m, r, m', h₁, h₂, rfl⟩
    rw [h₁, Option.bind_some, if_neg (lt_irrefl _), h₂]
    rfl

end

/-! ## Main results -/

/-- **Both vectors reach the process** if and only if they fit. -/
theorem setupRight_iff {c : SetupCall} (hc : c.Valid) : SetupRight c ↔ SetupOk c := by
  rw [SetupRight, hc.accepted_iff, SetupOk]
  by_cases hacc : (c.argv ≠ 0 → c.args.length ≤ 65) ∧ (c.envp ≠ 0 → c.envs.length ≤ 65)
  swap
  · refine iff_of_true (fun h => absurd h hacc) ?_
    rw [not_and_or, Classical.not_imp, Classical.not_imp, not_le, not_le] at hacc
    rcases hacc with h | h
    · exact .inl h
    · exact .inr (.inl h)
  have hargs : ¬ (c.argv ≠ 0 ∧ 65 < c.args.length) := fun h => absurd (hacc.1 h.1) (not_le.mpr h.2)
  have henvs : ¬ (c.envp ≠ 0 ∧ 65 < c.envs.length) := fun h => absurd (hacc.2 h.1) (not_le.mpr h.2)
  rw [imp_iff_right hacc, or_iff_right hargs, or_iff_right henvs]
  simp only [hc.setupArgEnv_eq_some hacc.1]
  constructor
  · rintro ⟨e, ⟨m, r, m', h₁, h₂, rfl⟩, hin, hin', hret⟩
    have hmem := (hc.argvPart_outside hacc.1 h₁).2 hin
    obtain ⟨rfl, hmem'⟩ := hc.envpPart_outside hacc.2 hmem h₂
    obtain ⟨_, hargv, henvp⟩ := hret.resolve_left (by decide : (0 : ℤ) ≠ -e2BIG)
    have hargv' (hne : c.argv ≠ 0) := (hc.args_congr (hacc.1 hne) (hmem' hin')).mp (hargv hne)
    exact ⟨(hc.argvPart_right_iff hacc.1).mp ⟨0, m, h₁, hin, hargv'⟩,
      (hc.envpPart_right_iff hacc.2 hmem).mp ⟨0, m', h₂, hin', henvp⟩⟩
  · rintro ⟨hargv, henvp⟩
    obtain ⟨r, m, h₁, hin, hargv⟩ := (hc.argvPart_right_iff hacc.1).mpr hargv
    obtain ⟨rfl, hmem⟩ := hc.argvPart_outside hacc.1 h₁
    obtain ⟨r', m', h₂, hin', henvp⟩ := (hc.envpPart_right_iff hacc.2 (hmem hin)).mpr henvp
    obtain ⟨rfl, hmem'⟩ := hc.envpPart_outside hacc.2 (hmem hin) h₂
    refine ⟨_, ⟨m, 0, m', h₁, h₂, rfl⟩, hin, hin', .inr ⟨rfl, fun hne => ?_, henvp⟩⟩
    exact (hc.args_congr (hacc.1 hne) (hmem' hin')).mpr (hargv hne)

/-- Vectors that `count` does not take: the arguments are refused at once, and the environment behind arguments
that fit. -/
theorem setupArgEnv_refused {c : SetupCall} (hc : c.Valid) (hrefused : ¬ c.Accepted)
    (hargv : c.argv ≠ 0 → c.args.length ≤ 65 →
      c.args.length ≤ 63 ∧ VectorFits c.argPage (260 + c.name.size) c.args) :
    ∃ e, setupArgEnv c.as c.mem c.argPage c.envPage c.argv c.envp c.name.addr = some e ∧ e.ret = -e2BIG ∧
      InsidePage c.argPage e.argWrites ∧ e.envWrites = [] := by
  have hneg : -e2BIG < 0 := by decide
  have hnone (page : BitVec 32) : InsidePage page [] := fun w hw => absurd hw List.not_mem_nil
  by_cases hmany : c.argv ≠ 0 ∧ 65 < c.args.length
  · have hcount := count_eq (hc.argvKept hmany.1).vector
    rw [if_neg (not_le.mpr hmany.2)] at hcount
    refine ⟨⟨-e2BIG, c.mem, [], []⟩, ?_, rfl, hnone _, rfl⟩
    rw [setupArgEnv, if_pos hmany.1, setupArgv]
    dsimp only
    rw [hcount, if_pos hneg]
    rfl
  have hacc : c.argv ≠ 0 → c.args.length ≤ 65 := fun hne => not_lt.mp fun h => hmany ⟨hne, h⟩
  obtain ⟨r, m, h₁, hin, -⟩ := (hc.argvPart_right_iff hacc).mpr fun hne => hargv hne (hacc hne)
  obtain ⟨rfl, hmem⟩ := hc.argvPart_outside hacc h₁
  have henvp : c.envp ≠ 0 ∧ ¬ c.envs.length ≤ 65 := by
    rw [hc.accepted_iff, not_and_or] at hrefused
    exact Classical.not_imp.mp (hrefused.resolve_left (not_not.mpr hacc))
  have hcount := count_eq (hc.envpKept henvp.1 (hmem hin)).vector
  rw [if_neg henvp.2] at hcount
  refine ⟨⟨-e2BIG, m.mem, m.writes, []⟩, ?_, rfl, hin, rfl⟩
  refine (hc.setupArgEnv_eq_some hacc).mpr ⟨m, -e2BIG, ⟨m.mem, []⟩, h₁, ?_, rfl⟩
  rw [SetupCall.envpPart, if_pos henvp.1, setupEnvp, hcount, if_pos hneg]

/-! ### The first process -/

/-- Some addresses hold all bytes of a vector. -/
def VectorIn (on : BitVec 32 → Prop) : (p : BitVec 32) → (strs : List ArgString) → Prop
  | p, [] => ∀ i < 4, on (p + BitVec.ofNat 32 i)
  | p, s :: strs =>
      (∀ i < 4, on (p + BitVec.ofNat 32 i)) ∧ (∀ i < s.size, on (s.addr + BitVec.ofNat 32 i)) ∧
        VectorIn on (p + 4) strs

section

variable {as : AddrSpace} {mem mem' : Memory} {on : BitVec 32 → Prop} {p : BitVec 32} {s : ArgString}
  {strs : List ArgString}

theorem ArgString.In.congr (h : s.In as mem) (hon : ∀ i < s.size, on (s.addr + BitVec.ofNat 32 i))
    (heq : ∀ a, on a → mem' a = mem a) : s.In as mem' :=
  ⟨h.1.congr fun i hi => heq _ (hon i (s.length_text ▸ hi)), h.2⟩

/-- What is written elsewhere does not change a vector. -/
theorem HasVector.congr (h : HasVector as mem p strs) (hon : VectorIn on p strs)
    (heq : ∀ a, on a → mem' a = mem a) : HasVector as mem' p strs := by
  induction strs generalizing p with
  | nil => exact (readWord_congr fun i hi => heq _ (hon i hi)).trans h
  | cons s strs ih =>
      obtain ⟨hword, hne, hin, h⟩ := h
      obtain ⟨hslot, htext, hon⟩ := hon
      exact ⟨(readWord_congr fun i hi => heq _ (hslot i hi)).trans hword, hne, hin.congr htext heq, ih h hon⟩

instance (as : AddrSpace) (mem : Memory) (s : ArgString) : Decidable (s.In as mem) :=
  inferInstanceAs (Decidable (_ ∧ _))

instance (page a : BitVec 32) : Decidable (InPage page a) := inferInstanceAs (Decidable (_ < _))

instance HasVector.decidable (as : AddrSpace) (mem : Memory) :
    (p : BitVec 32) → (strs : List ArgString) → Decidable (HasVector as mem p strs)
  | p, [] => inferInstanceAs (Decidable (readWord mem p = 0))
  | p, _ :: strs =>
      have := HasVector.decidable as mem (p + 4) strs
      inferInstanceAs (Decidable (_ ∧ _ ∧ _ ∧ _))

instance VectorIn.decidable (on : BitVec 32 → Prop) [DecidablePred on] :
    (p : BitVec 32) → (strs : List ArgString) → Decidable (VectorIn on p strs)
  | p, [] => inferInstanceAs (Decidable (∀ i < 4, on (p + BitVec.ofNat 32 i)))
  | p, _ :: strs =>
      have := VectorIn.decidable on (p + 4) strs
      inferInstanceAs (Decidable (_ ∧ _ ∧ _))

end

/-- All pages are present. -/
def allPresent : AddrSpace := ⟨fun _ => 0xFF, fun _ _ => 0⟩

/-- Bytes with their addresses. -/
def placed (a : BitVec 32) (data : List (BitVec 8)) : List (BitVec 32 × BitVec 8) :=
  data.zipIdx.map fun x => (a + BitVec.ofNat 32 x.2, x.1)

/-- The vectors of `init`, at `p`: `"test"`, `"argv2"` and `"PATH=/"`. -/
def initCall (p : BitVec 32) : SetupCall where
  as := allPresent
  mem := fun a => ((placed p (wordBytes (p + 32) ++ wordBytes (p + 40)) ++ placed (p + 16) (wordBytes (p + 48)) ++
    placed (p + 32) [116, 101, 115, 116] ++ placed (p + 40) [97, 114, 103, 118, 50] ++
    placed (p + 48) [80, 65, 84, 72, 61, 47] ++
    placed 0xC0001000 [47, 98, 105, 110, 47, 105, 110, 105, 116]).lookup a).getD 0
  argPage := 0xC0002000
  envPage := 0xC0003000
  argv := p
  envp := p + 16
  name := ⟨0xC0001000, [47, 98, 105, 110, 47, 105, 110, 105, 116], by decide⟩
  args := [⟨p + 32, [116, 101, 115, 116], by decide⟩, ⟨p + 40, [97, 114, 103, 118, 50], by decide⟩]
  envs := [⟨p + 48, [80, 65, 84, 72, 61, 47], by decide⟩]

/-- The vectors may be the user's, or the kernel's. -/
theorem initCall_valid {p : BitVec 32} (hp : p ∈ [0x1000, 0xC0100000]) : (initCall p).Valid where
  argPage := by fin_cases hp <;> decide
  envPage := by fin_cases hp <;> decide
  pages := by fin_cases hp <;> decide
  nameLen := by fin_cases hp <;> decide
  kept := by
    intro mem hmem
    have heq (a : BitVec 32) (ha : ¬ InPage 0xC0002000 a ∧ ¬ InPage 0xC0003000 a) :
        mem a = (initCall p).mem a := hmem a ha.1 ha.2
    refine ⟨ArgString.In.congr ?_ ?_ heq, fun _ => HasVector.congr ?_ ?_ heq, fun _ => HasVector.congr ?_ ?_ heq⟩
    all_goals fin_cases hp <;> decide +kernel

/-- A process that is started by a user with the vectors of `init`. -/
theorem setupRight_iff_user : SetupRight (initCall 0x1000) ↔ SetupOk (initCall 0x1000) :=
  setupRight_iff (initCall_valid (by decide))

/-- The first process gets empty strings, because its vectors are the kernel's. -/
theorem setup_can_lose_args : ¬ ∀ c : SetupCall, c.Valid → SetupRight c := by
  intro hall
  have haccept : (initCall 0xC0100000).Accepted := ⟨fun _ => by decide +kernel, fun _ => by decide +kernel⟩
  obtain ⟨e, he, -, -, hret⟩ := hall _ (initCall_valid (by decide)) haccept
  have hrun : (setupArgEnv allPresent (initCall 0xC0100000).mem 0xC0002000 0xC0003000 0xC0100000 0xC0100010
      0xC0001000).map (fun e => (e.ret, readWord e.mem 0xC0002008, e.mem 0xC000210E)) =
        some (0, argBase + 270, 0) := by
    decide +kernel
  obtain ⟨e', he', hrun⟩ := Option.map_eq_some_iff.mp hrun
  obtain rfl := Option.some.inj (he.symm.trans he')
  obtain ⟨hzero, hrun⟩ := Prod.mk.inj hrun
  obtain ⟨hslot, hbyte⟩ := Prod.mk.inj hrun
  obtain ⟨_, hargs, _⟩ := hret.resolve_left (by rw [hzero]; decide)
  obtain ⟨off, hword, _, hoff, htext⟩ := hargs (by decide) 1 (by decide)
  have hps : pageSize = 4096 := rfl
  obtain rfl := add_ofNat_inj (show 270 < 2 ^ 32 by decide) (by omega) (hslot.symm.trans hword)
  have hfirst : e.mem 0xC000210E = 116 := htext 0 (by decide)
  rw [hbyte] at hfirst
  exact absurd hfirst (by decide)

end Shaunos.Mm
