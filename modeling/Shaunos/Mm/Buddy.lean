import Mathlib
import Shaunos.Common.Ring
import Shaunos.Kernel.Bitops

/-!
# The physical page allocator

Reference: `Kernel/mm.c`, with the intrusive lists of `Include/list.h`.

The page descriptors are one array: `mem_lower_map` for the pages below 1 MiB and, directly behind
it, `mem_upper_map`. A descriptor is named by its index relative to `mem_upper_map`, so the low map
has the indices `-lowmemPages, …, -1`. The array is a total function: `expand` and `buddy_free`
compute descriptor addresses that no bound is checked against, and what stands there is whatever
the memory holds.

The `list` fields of the descriptors and the heads of `mm_buddy_array` are the nodes of one `Links`
structure, so that linking a descriptor that is already on a list does to the pointers what the C
code does.

Interrupt masking and the log lines are left out, as are the bytes that `ALLOC_ZEROED` clears.
-/

namespace Shaunos.Mm

open Bitops

/-! ## Data -/

/-- `BUDDY_CHUNK_NUM`: the orders are `0, …, 10`. -/
def buddyChunkNum : ℕ := 11

/-- `PAGE_SHIFT`. -/
def pageShift : ℕ := 12

/-- `PAGE_RESVD`, used as a bit number of `flag`. -/
def pageResvd : ℕ := 1 <<< 3

/-- `PAGE_BUDDY`, used as a bit number of `flag`. -/
def pageBuddy : ℕ := 1 <<< 4

/-- `ALLOC_LOWMEM`. -/
def allocLowmem : BitVec 32 := 1#32 <<< 1

/-- `ALLOC_NORMAL`. -/
def allocNormal : BitVec 32 := 1#32 <<< 2

/-- `struct page`, without its `list` field (which is a `Node`). -/
structure Page where
  flag : BitVec 32
  count : BitVec 32
  priv : BitVec 32
  deriving DecidableEq

/-- A `struct linked_list`: the head of `mm_buddy_array[order]`, or the `list` field of a page. -/
inductive Node where
  | head (order : ℕ)
  | page (i : ℤ)
  deriving DecidableEq

/-- The allocator's globals. -/
structure State where
  /-- `mem_upper_map[i]`; the low map has the negative indices. -/
  page : ℤ → Page
  /-- The pointers of every `struct linked_list`. -/
  list : Links Node
  /-- `mm_buddy_array[order].free_num`. -/
  freeNum : ℕ → BitVec 32
  buddyMapBase : ℤ
  /-- `mem_upper_map - mem_lower_map`. -/
  lowmemPages : ℕ
  /-- `(u32)kern_mem_end`. -/
  kernMemEnd : BitVec 32

/-- Change one page descriptor. -/
def State.modify (s : State) (p : ℤ) (f : Page → Page) : State :=
  { s with page := Function.update s.page p (f (s.page p)) }

/-- Change the descriptors `p[0], …, p[n - 1]`, each from its own old value. -/
def State.modifyRange (s : State) (p : ℤ) (n : ℕ) (f : Page → Page) : State :=
  { s with page := fun i => if p ≤ i ∧ i < p + n then f (s.page i) else s.page i }

/-! ## `Include/list.h` on the allocator's lists -/

/-- `list_is_empty`. -/
def listIsEmpty (s : State) (head : Node) : Bool := s.list.next head = head

/-- `list_add`. -/
def listAdd (s : State) (head entry : Node) : State :=
  { s with list := s.list.insertAfter head entry }

/-- `list_del`. -/
def listDel (s : State) (entry : Node) : State :=
  { s with list := s.list.unlink entry }

/-- `container_of(node, struct page, list)`. A list head is not part of a `struct page`: what the C
code then works on is not modelled. -/
def containerOf : Node → Option ℤ
  | .head _ => none
  | .page i => some i

/-- `mm_buddy_array[order].free_num` changed by `f`. -/
def State.modifyFreeNum (s : State) (order : ℕ) (f : BitVec 32 → BitVec 32) : State :=
  { s with freeNum := Function.update s.freeNum order (f (s.freeNum order)) }

/-! ## Addresses -/

/-- `page_to_virt`: the kernel address of the page that a descriptor of the upper map stands for. -/
def pageToVirt (p : ℤ) : BitVec 32 := (BitVec.ofInt 32 p <<< pageShift) + 0xC0100000#32

/-- `virt_to_page`. -/
def virtToPage (addr : BitVec 32) : ℤ := ((addr - 0xC0100000#32) >>> pageShift).toNat

/-! ## Page marks -/

/-- `rmv_page_order`. -/
def rmvPageOrder (s : State) (p : ℤ) : State :=
  s.modify p fun pg => { pg with flag := clearBit pageBuddy pg.flag, priv := 0 }

/-- `set_page_order`. -/
def setPageOrder (s : State) (p : ℤ) (order : ℕ) : State :=
  s.modify p fun pg => { pg with priv := BitVec.ofNat 32 order, flag := setBit pageBuddy pg.flag }

/-- `page_in_buddy`. -/
def pageInBuddy (s : State) (p : ℤ) : Bool := getBit pageBuddy (s.page p).flag

/-- `page_is_buddy`. -/
def pageIsBuddy (s : State) (p : ℤ) (order : ℕ) : Bool :=
  (s.page p).priv == BitVec.ofNat 32 order && pageInBuddy s p && (s.page p).count == 0

/-- `page_is_ok`. -/
def pageIsOk (s : State) (p : ℤ) : Bool := !getBit pageResvd (s.page p).flag

/-! ## The buddy core -/

/-- `buddy_init`. Each pass of its two loops writes its own order, or its own descriptor, only. The
loop over the descriptors ends at `stop`, which is included, and leaves `p` behind it. -/
def buddyInit (s : State) (totalMem : BitVec 32) (start stop : ℤ) : State :=
  let inRange (i : ℤ) : Bool := start ≤ i ∧ i ≤ stop
  let fresh : Node → Bool
    | .head k => k < buddyChunkNum
    | .page i => inRange i
  let i := buddyChunkNum - 1
  let s : State := { s with
    freeNum := fun k => if k < buddyChunkNum then 0 else s.freeNum k
    list :=
      { prev := fun n => if fresh n then n else s.list.prev n
        next := fun n => if fresh n then n else s.list.next n }
    page := fun p =>
      if inRange p then
        { flag := setBit pageBuddy (s.page p).flag, count := 0, priv := BitVec.ofNat 32 i }
      else s.page p
    buddyMapBase := max start (stop + 1) }
  let s := listAdd s (.head i) (.page start)
  s.modifyFreeNum i fun _ => (totalMem >>> 2) >>> i

/-- The `while (curr_order > order)` loop of `expand`. -/
def expandLoop (p : ℤ) (order : ℕ) : (currOrder size : ℕ) → State → State
  | 0, _, s => s
  | currOrder + 1, size, s =>
      if order < currOrder + 1 then
        let size := size >>> 1
        let s := listAdd s (.head currOrder) (.page (p + size))
        let s := s.modifyFreeNum currOrder (· + 1)
        let s := setPageOrder s (p + size) currOrder
        expandLoop p order currOrder size s
      else s

/-- `expand`. It returns `p`. -/
def expand (s : State) (p : ℤ) (order currOrder : ℕ) : State :=
  let size := 1 <<< currOrder
  let s :=
    if currOrder = buddyChunkNum - 1 then listAdd s (.head currOrder) (.page (p + size)) else s
  expandLoop p order currOrder size s

/-- The order at which the `for` loop of `buddy_alloc` stops: the first one, from `order` on, whose
list is not empty. -/
def servingOrder (s : State) (order : ℕ) : Option ℕ :=
  (List.range' order (buddyChunkNum - order)).find? fun corder => !listIsEmpty s (.head corder)

/-- `buddy_alloc`: the page taken, if any list could serve the request. -/
def buddyAlloc (s : State) (order : ℕ) : Option (Option ℤ × State) :=
  match servingOrder s order with
  | none => some (none, s)
  | some corder => do
      let p ← containerOf (s.list.next (.head corder))
      let s := listDel s (.page p)
      let s := rmvPageOrder s p
      let s := s.modifyFreeNum corder (· - 1)
      return (some p, expand s p order corder)

/-- `buddy_idx`: the index of the buddy, computed on the wrapped index of the page. -/
def buddyIdx (pageIdx : BitVec 32) (order : ℕ) : BitVec 32 := pageIdx ^^^ (1#32 <<< order)

/-- The merge loop of `buddy_free`, with the index and the order it ends with. Pointer arithmetic
wraps, so `buddy_map_base + page_idx` is the signed reading of the index.

The first argument bounds the passes; `BUDDY_CHUNK_NUM - 1 - order` of them are enough. -/
def buddyFreeLoop : ℕ → State → BitVec 32 → ℕ → State × BitVec 32 × ℕ
  | 0, s, pageIdx, order => (s, pageIdx, order)
  | fuel + 1, s, pageIdx, order =>
      if order < buddyChunkNum - 1 then
        let buddy := s.buddyMapBase + (buddyIdx pageIdx order).toInt
        if !pageIsBuddy s buddy order then (s, pageIdx, order)
        else if !pageIsOk s buddy then (s, pageIdx, order)
        else
          let s' := listDel s (.page buddy)
          let s' := s'.modifyFreeNum order (· - 1)
          let s' := rmvPageOrder s' buddy
          buddyFreeLoop fuel s' (pageIdx &&& buddyIdx pageIdx order) (order + 1)
      else (s, pageIdx, order)

/-- `buddy_free`. -/
def buddyFree (s : State) (p : ℤ) (order : ℕ) : State :=
  let pageIdx := BitVec.ofInt 32 (p - s.buddyMapBase)
  let r := buddyFreeLoop (buddyChunkNum - 1 - order) s pageIdx order
  let s := r.1
  let coalesced := s.buddyMapBase + r.2.1.toInt
  let s := setPageOrder s coalesced r.2.2
  let s := listAdd s (.head r.2.2) (.page coalesced)
  s.modifyFreeNum r.2.2 (· + 1)

/-! ## Allocation and release by address -/

/-- `alloc_pages_buddy`. -/
def allocPagesBuddy (s : State) (order : ℕ) : Option (BitVec 32 × State) := do
  match ← buddyAlloc s order with
  | (none, s) => return (0, s)
  | (some p, s) =>
      return (pageToVirt p,
        s.modifyRange p (1 <<< order) fun pg => { pg with count := pg.count + 1 })

/-- The inner loop of `alloc_pages_lowmem`: how many of the `nr` entries from `i` on are unused, up
to the first one that is not. -/
def lowmemRun (s : State) (i nr : ℕ) : ℕ :=
  ((List.range nr).takeWhile fun num => (s.page ((i + num : ℕ) - s.lowmemPages)).count == -1).length

/-- The outer loop of `alloc_pages_lowmem`; every pass moves `i` on, so `lowmemPages` passes are
enough. -/
def allocPagesLowmemLoop (s : State) (nr : ℕ) : ℕ → ℕ → BitVec 32 × State
  | 0, _ => (-1, s)
  | fuel + 1, i =>
      if i < s.lowmemPages then
        let p : ℤ := i - s.lowmemPages
        if (s.page p).count == -1 then
          let num := lowmemRun s i nr
          if num < nr ∨ !pageIsOk s p then allocPagesLowmemLoop s nr fuel (i + num)
          else
            (0xC0000000#32 + (BitVec.ofNat 32 i <<< pageShift),
              s.modifyRange p nr fun pg => { pg with count := pg.count + 1 })
        else allocPagesLowmemLoop s nr fuel (i + 1)
      else (-1, s)

/-- `alloc_pages_lowmem`. -/
def allocPagesLowmem (s : State) (nr : ℤ) : BitVec 32 × State :=
  if nr ≤ 0 then (-1, s) else allocPagesLowmemLoop s nr.toNat s.lowmemPages 0

/-- `alloc_pages`, with `__alloc_pages` inlined. A flag that asks for neither kind of memory returns
an uninitialised variable; that case is left open. -/
def allocPages (s : State) (flag : BitVec 32) (order : ℤ) : Option (BitVec 32 × State) :=
  if flag.toInt ≤ 0 ∨ order < 0 ∨ order > 11 then some (0, s)
  else if flag &&& allocLowmem ≠ 0 then some (allocPagesLowmem s (1 <<< order.toNat))
  else if flag &&& allocNormal ≠ 0 then allocPagesBuddy s order.toNat
  else none

/-- `free_pages_buddy`. A page of the block whose count is not 1 ends in `BUG()`, which never
returns. -/
def freePagesBuddy (s : State) (order : ℕ) (addr : BitVec 32) : Option State :=
  if addr &&& 0xFFF#32 ≠ 0 then some s
  else
    let p := virtToPage addr
    if pageInBuddy s p then some s
    else if ∀ i < 1 <<< order, (s.page (p + (i : ℕ))).count - 1 = 0 then
      let s := s.modifyRange p (1 <<< order) fun pg => { pg with count := pg.count - 1 }
      some (buddyFree s p order)
    else none

/-- `free_page_lowmem`. -/
def freePageLowmem (s : State) (addr : BitVec 32) : State :=
  if addr < s.kernMemEnd ∧ addr > 0xC0100000#32 then s
  else if addr &&& 0xFFF#32 ≠ 0 then s
  else
    let p : ℤ := ((addr - 0xC0000000#32) >>> pageShift).toNat - s.lowmemPages
    if (s.page p).count == -1 then s
    else s.modify p fun pg => { pg with count := pg.count - 1 }

/-- `free_pages_lowmem`. -/
def freePagesLowmem (s : State) (nr : ℕ) (addr : BitVec 32) : State :=
  ((List.range nr).foldl
    (fun (st : State × BitVec 32) _ => (freePageLowmem st.1 st.2, st.2 + 4096#32)) (s, addr)).1

/-- `free_pages`. -/
def freePages (s : State) (order : ℕ) (addr : BitVec 32) : Option State :=
  if addr < 0xC0100000#32 then some (freePagesLowmem s (1 <<< order) addr)
  else freePagesBuddy s order addr

end Shaunos.Mm
