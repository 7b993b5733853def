import Shaunos.Common.Row
import Shaunos.Net.IpFrag

/-!
# The queue of fragments

Reference: `Kernel/netinet/ip_input.c` (`ip_reass`), `Include/kernel/sys/netinet/ip_val.h`.

`ipv4_input` has put the fields of the header in host order, and `ip_ours` has made a number of bytes of the offset.
`ip_reass` looks for the place of a fragment with the fields as they are, and swaps them everywhere else.

* `Ipq.Holds.put` — what the entries become when a fragment is put between them.
-/

namespace Shaunos.Net

/-! ## The code -/

def ipMAXPACKET : ℤ := 65535

def ipFRAGTTL : Byte := 60

/-- `ip_hl << 2`. -/
def Ip.hlen (ip : Ip) : ℕ := ip.ipVhl.toNat % 16 * 4

/-- `struct ipqent` without its links: the header, the chain behind the header, and `ipq_mff`. -/
structure Frag where
  ipqeIp : Ip
  ipqeM : List Mbuf
  ipqMff : Bool

/-- `ntohs (ipqe_ip->ip_off)`. -/
def Frag.netOff (x : Frag) : ℤ := (htons x.ipqeIp.ipOff).toNat

/-- `ntohs (ipqe_ip->ip_len)`. -/
def Frag.netLen (x : Frag) : ℤ := (htons x.ipqeIp.ipLen).toNat

/-- `i` bytes are cut off at the front. -/
def Frag.cut (i : ℤ) (x : Frag) : Frag :=
  { x with
    ipqeIp := { x.ipqeIp with
      ipOff := htons (BitVec.ofInt 16 (x.netOff + i))
      ipLen := htons (BitVec.ofInt 16 (x.netLen - i)) }
    ipqeM := mAdj x.ipqeM i }

/-- By how much `p` reaches into `x`. -/
def Frag.reach (p x : Frag) : ℤ := p.netOff + p.netLen - x.netOff

/-- `struct ipqent`. -/
structure Ipqent (ι : Type) where
  next : Option ι
  prev : Option ι
  frag : Frag

/-- `struct ipq`, and the entries in memory. -/
structure Ipq (ι : Type) where
  ipqTtl : Byte
  ipqP : Byte
  ipqId : BitVec 16
  ipqSrc : BitVec 32
  ipqDst : BitVec 32
  /-- `ipq_fragq.first`. -/
  first : Option ι
  /-- The entries that are allocated. -/
  live : Finset ι
  ent : ι → Ipqent ι

section

variable {ι : Type} [DecidableEq ι]

namespace Ipq

variable (q : Ipq ι)

/-- Read an entry. One that is freed must not be used. -/
def get (i : ι) : Option (Ipqent ι) := if i ∈ q.live then some (q.ent i) else none

/-- Change an entry. -/
def modify (i : ι) (f : Ipqent ι → Ipqent ι) : Option (Ipq ι) :=
  if i ∈ q.live then some { q with ent := Function.update q.ent i (f (q.ent i)) } else none

/-- The same through a pointer that may be null, and is checked. -/
def modifyAt (p : Option ι) (f : Ipqent ι → Ipqent ι) : Option (Ipq ι) :=
  match p with
  | none => some q
  | some i => q.modify i f

/-- The loop that looks for the place of a fragment: the entry before it, and the entry behind it. -/
def search (ipOff : BitVec 16) : (fuel : ℕ) → (p pos : Option ι) → Option (Option ι × Option ι)
  | 0, _, _ => none
  | _ + 1, p, none => some (p, none)
  | fuel + 1, p, some i => do
      let e ← q.get i
      if ipOff.slt e.frag.ipqeIp.ipOff then return (p, some i)
      search ipOff fuel (some i) e.next

/-- Dequeue and free an entry. -/
def dequeue (i : ι) : Option (Ipq ι) := do
  let e ← q.get i
  let q ← q.modifyAt e.next fun x => { x with prev := e.prev }
  let prev ← e.prev
  let q ← q.modify prev fun x => { x with next := e.next }
  return { q with live := q.live.erase i }

/-- The entries that the new one reaches into are trimmed or dequeued. -/
def trim (x : Frag) : (fuel : ℕ) → Ipq ι → (pos : Option ι) → Option (Ipq ι)
  | 0, _, _ => none
  | _ + 1, q, none => some q
  | fuel + 1, q, some i => do
      let e ← q.get i
      let r := x.reach e.frag
      if 0 < r then
        if r < e.frag.netLen then q.modify i fun e => { e with frag := e.frag.cut r }
        else do
          let q ← q.dequeue i
          trim x fuel q e.next
      else some q

/-- `insert`. -/
def insert (ipqe : ι) (x : Frag) (p : Option ι) : Option (Ipq ι) := do
  let q := { q with live := Insert.insert ipqe q.live }
  match p with
  | none => do
      let q := { q with ent := Function.update q.ent ipqe ⟨q.first, some ipqe, x⟩ }
      let q ← q.modifyAt q.first fun e => { e with prev := some ipqe }
      return { q with first := some ipqe }
  | some p => do
      let e ← q.get p
      let q := { q with ent := Function.update q.ent ipqe ⟨e.next, some p, x⟩ }
      let q ← q.modifyAt e.next fun e => { e with prev := some ipqe }
      q.modify p fun e => { e with next := some ipqe }

/-- The loop that looks for holes: no hole, the entry it ends at, and `next`. -/
def whole : (fuel : ℕ) → (p pos : Option ι) → (next : ℤ) → Option (Option (Option ι × ℤ))
  | 0, _, _, _ => none
  | _ + 1, p, none, next => some (some (p, next))
  | fuel + 1, _, some i, next => do
      let e ← q.get i
      if e.frag.netOff ≠ next then return none
      whole fuel (some i) e.next (next + e.frag.netLen)

end Ipq

/-- `m_cat` from the last mbuf of the first chain on. -/
def mCatLast (m : Mbuf) : List Mbuf → List Mbuf
  | [] => [m]
  | n :: rest =>
      if m.mExt ∨ mLEN ≤ m.mData + m.mLen + n.mLen then m :: n :: rest
      else mCatLast { m with bytes := m.bytes ++ n.bytes } rest

/-- `m_cat`. -/
def mCat : List Mbuf → List Mbuf → List Mbuf
  | [], _ => []
  | [m], n => mCatLast m n
  | m :: m' :: rest, n => m :: mCat (m' :: rest) n

namespace Ipq

variable (q : Ipq ι)

/-- The chains of all the entries together. -/
def join : (fuel : ℕ) → (m : List Mbuf) → (pos : Option ι) → Option (List Mbuf)
  | 0, _, _ => none
  | _ + 1, m, none => some m
  | fuel + 1, m, some i => do
      let e ← q.get i
      join fuel (mCat m e.frag.ipqeM) e.next

/-- What comes behind `insert`: the packet, when it is whole, and the queue, as long as there is one.
`ip_freef` frees all of it. -/
def finish : Option (Option (Ip × List Mbuf) × Option (Ipq ι)) := do
  match ← q.whole (q.live.card + 1) none q.first 0 with
  | none => return (none, some q)
  | some (p, next) =>
      let e ← q.get (← p)
      if e.frag.ipqMff then return (none, some q)
      let e ← q.get (← q.first)
      let ip := e.frag.ipqeIp
      if ipMAXPACKET < next + ip.hlen then return (none, none)
      let m ← match e.frag.ipqeM with
        | [] => none
        | m :: t => q.join (q.live.card + 1) (mCat [m] t) e.next
      let ip := { ip with ipLen := htons (BitVec.ofInt 16 next), ipSrc := q.ipqSrc, ipDst := q.ipqDst }
      return (some (ip, setPkthdr (fun _ => ip.hlen + chainLen m) m), none)

end Ipq

/-- The header of a fragment is taken off its chain. -/
def stripHeader (hlen : ℕ) : List Mbuf → List Mbuf
  | [] => []
  | m :: rest => { m with mData := m.mData + hlen, bytes := m.bytes.drop hlen } :: rest

/-- The fragment behind its header. -/
def Frag.strip (x : Frag) : Frag := { x with ipqeM := stripHeader x.ipqeIp.hlen x.ipqeM }

/-- A new queue for a fragment. -/
def newIpq (ip : Ip) (e : Ipqent ι) : Ipq ι where
  ipqTtl := ipFRAGTTL
  ipqP := ip.ipP
  ipqId := ip.ipId
  ipqSrc := ip.ipSrc
  ipqDst := ip.ipDst
  first := none
  live := ∅
  ent := fun _ => e

/-- The new fragment, trimmed to what the one before it does not have, or nothing when that has all of it. -/
def Frag.behind (p : Option Frag) (x : Frag) : Option Frag :=
  match p with
  | none => some x
  | some p =>
      let i := p.reach x
      if 0 < i then if x.netLen ≤ i then none else some (x.cut i) else some x

/-- The fragment of the entry before a new one. -/
def Ipq.fragAt (q : Ipq ι) : (p : Option ι) → Option (Option Frag)
  | none => some none
  | some p => (q.get p).map fun e => some e.frag

/-- The fragment is put between `p` and `pos`. -/
def Ipq.put (q : Ipq ι) (ipqe : ι) (x : Frag) (p pos : Option ι) : Option (Ipq ι) := do
  let q ← Ipq.trim x (q.live.card + 1) q pos
  q.insert ipqe x p

/-- `ip_reass`: the packet, or null, and the queue. `alloc` says that `kmalloc` has memory for a queue. -/
def ipReass (ipqe : ι) (x : Frag) (alloc : Bool) (fp : Option (Ipq ι)) :
    Option (Option (Ip × List Mbuf) × Option (Ipq ι)) := do
  let x := x.strip
  match fp with
  | none =>
      if alloc then do
        let q ← (newIpq x.ipqeIp ⟨none, none, x⟩).insert ipqe x none
        q.finish
      else return (none, none)
  | some q => do
      let (p, pos) ← q.search x.ipqeIp.ipOff (q.live.card + 1) none q.first
      match x.behind (← q.fragAt p) with
      | none => return (none, some q)
      | some x => do
          let q ← q.put ipqe x p pos
          q.finish

/-! ## The list in memory -/

/-- The links of `l` lead from each entry to the next one and back, and end. The first entry leads back to itself. -/
def Ipq.Ended (q : Ipq ι) (l : List ι) : Prop :=
  Row (fun i => (q.ent i).next) (fun i => (q.ent i).prev) q.first l none

/-- The entries from `pos` on. -/
def Ipq.fragsFrom (q : Ipq ι) : (fuel : ℕ) → (pos : Option ι) → List (ι × Frag)
  | 0, _ => []
  | _ + 1, none => []
  | fuel + 1, some i => (i, (q.ent i).frag) :: Ipq.fragsFrom q fuel (q.ent i).next

def Ipq.frags (q : Ipq ι) : List (ι × Frag) := q.fragsFrom (q.live.card + 1) q.first

variable {q q' : Ipq ι} {l a b : List (ι × Frag)} {x x' : Frag} {y : ι × Frag}
  {i : ι} {fuel : ℕ}

/-- The queue is the list `l`. -/
structure Ipq.Holds (q : Ipq ι) (l : List (ι × Frag)) : Prop where
  first : q.first = (l.map Prod.fst).head?
  ended : q.Ended (l.map Prod.fst)
  live : ∀ x ∈ l, x.1 ∈ q.live
  frag : ∀ x ∈ l, (q.ent x.1).frag = x.2

namespace Ipq

theorem get_eq (h : i ∈ q.live) : q.get i = some (q.ent i) := if_pos h

/-- The entry at `pos`, if there is one, is changed. -/
def change (q : Ipq ι) (pos : Option ι) (f : Ipqent ι → Ipqent ι) : Ipq ι :=
  { q with ent := fun j => if pos = some j then f (q.ent j) else q.ent j }

section

variable (pos : Option ι) (f : Ipqent ι → Ipqent ι) (j : ι)

@[simp] theorem change_first : (q.change pos f).first = q.first := rfl

@[simp] theorem change_live : (q.change pos f).live = q.live := rfl

theorem change_ent : (q.change pos f).ent j = if pos = some j then f (q.ent j) else q.ent j := rfl

theorem change_ent_self : (q.change (some i) f).ent i = f (q.ent i) := if_pos rfl

theorem change_ent_of_ne (h : pos ≠ some j) : (q.change pos f).ent j = q.ent j := if_neg h

theorem change_next (h : ∀ e, (f e).next = e.next) : ((q.change pos f).ent j).next = (q.ent j).next := by
  rw [change_ent]
  split
  · exact h _
  · rfl

theorem change_prev (h : ∀ e, (f e).prev = e.prev) : ((q.change pos f).ent j).prev = (q.ent j).prev := by
  rw [change_ent]
  split
  · exact h _
  · rfl

theorem change_frag (h : ∀ e, (f e).frag = e.frag) : ((q.change pos f).ent j).frag = (q.ent j).frag := by
  rw [change_ent]
  split
  · exact h _
  · rfl

theorem modify_eq (h : i ∈ q.live) : q.modify i f = some (q.change (some i) f) := by
  rw [modify, if_pos h, change]
  congr 2
  funext j
  rw [Function.update_apply]
  rcases eq_or_ne j i with rfl | hne
  · rw [if_pos rfl, if_pos rfl]
  · rw [if_neg hne, if_neg fun heq => hne (Option.some.inj heq).symm]

theorem modifyAt_eq (h : ∀ i ∈ pos, i ∈ q.live) : q.modifyAt pos f = some (q.change pos f) := by
  cases pos with
  | none =>
      rw [modifyAt, change]
      rfl
  | some i => exact modify_eq f (h i rfl)

end

/-- The chain of a list in memory. -/
def Walk (q : Ipq ι) (pos : Option ι) (l : List (ι × Frag)) : Prop :=
  Chain (fun i => (q.ent i).next) pos (l.map Prod.fst) ∧ ∀ x ∈ l, x.1 ∈ q.live ∧ (q.ent x.1).frag = x.2

omit [DecidableEq ι] in
theorem Walk.tail {pos : Option ι} (h : q.Walk pos (y :: l)) :
    pos = some y.1 ∧ y.1 ∈ q.live ∧ (q.ent y.1).frag = y.2 ∧ q.Walk (q.ent y.1).next l :=
  ⟨h.1.1, (h.2 y List.mem_cons_self).1, (h.2 y List.mem_cons_self).2, h.1.2,
    fun x hx => h.2 x (List.mem_cons_of_mem y hx)⟩

omit [DecidableEq ι] in
theorem Holds.walk (h : q.Holds l) : q.Walk q.first l :=
  ⟨h.first ▸ h.ended.chain, fun x hx => ⟨h.live x hx, h.frag x hx⟩⟩

omit [DecidableEq ι] in
theorem Holds.nodup (h : q.Holds l) : (l.map Prod.fst).Nodup := h.ended.nodup

/-- A walk over the entries does not run out of fuel. -/
theorem Holds.length_le (h : q.Holds l) : l.length ≤ q.live.card := by
  rw [← List.length_map (f := Prod.fst), ← List.toFinset_card_of_nodup h.nodup]
  refine Finset.card_le_card ?_
  intro i hi
  obtain ⟨x, hx, rfl⟩ := List.mem_map.mp (List.mem_toFinset.mp hi)
  exact h.live x hx

omit [DecidableEq ι] in
theorem fragsFrom_eq {pos : Option ι} (h : q.Walk pos l) (hfuel : l.length < fuel) : q.fragsFrom fuel pos = l := by
  induction l generalizing pos fuel with
  | nil =>
      obtain ⟨fuel, rfl⟩ := Nat.exists_eq_add_of_lt hfuel
      obtain rfl : pos = none := h.1
      rfl
  | cons y l ih =>
      obtain ⟨fuel, rfl⟩ := Nat.exists_eq_succ_of_ne_zero (Nat.ne_zero_of_lt hfuel)
      obtain ⟨rfl, -, hfrag, hwalk⟩ := h.tail
      rw [fragsFrom, hfrag, ih hwalk (Nat.lt_of_succ_lt_succ hfuel)]

/-- The queue is what a walk over it finds. -/
theorem Holds.frags_eq (h : q.Holds l) : q.frags = l := fragsFrom_eq h.walk (Nat.lt_succ_of_le h.length_le)

/-- The place of a fragment. -/
theorem search_eq {ipOff : BitVec 16} {p pos : Option ι} (h : q.Walk pos l) (hfuel : l.length < fuel) :
    q.search ipOff fuel p pos =
      some (((l.takeWhile fun y => !ipOff.slt y.2.ipqeIp.ipOff).getLast?.map Prod.fst).or p,
        (l.dropWhile fun y => !ipOff.slt y.2.ipqeIp.ipOff).head?.map Prod.fst) := by
  induction l generalizing p pos fuel with
  | nil =>
      obtain ⟨fuel, rfl⟩ := Nat.exists_eq_add_of_lt hfuel
      obtain rfl : pos = none := h.1
      rfl
  | cons y l ih =>
      obtain ⟨fuel, rfl⟩ := Nat.exists_eq_succ_of_ne_zero (Nat.ne_zero_of_lt hfuel)
      obtain ⟨rfl, hlive, hfrag, hwalk⟩ := h.tail
      rw [search, get_eq hlive, Option.bind_eq_bind, Option.bind_some, hfrag, List.takeWhile_cons, List.dropWhile_cons]
      cases hlt : ipOff.slt y.2.ipqeIp.ipOff with
      | true => rfl
      | false =>
          rw [if_neg Bool.false_ne_true, ih hwalk (Nat.lt_of_succ_lt_succ hfuel), Bool.not_false, if_pos rfl, if_pos rfl,
            List.getLast?_cons]
          cases (l.takeWhile fun y => !ipOff.slt y.2.ipqeIp.ipOff).getLast? <;> rfl

omit [DecidableEq ι] in
theorem Holds.next_eq {p : ι × Frag} (h : q.Holds (a ++ p :: b)) : (q.ent p.1).next = (b.map Prod.fst).head? := by
  have hrow := h.ended
  rw [Ended, List.map_append, List.map_cons, row_append] at hrow
  exact hrow.2.2.1.trans Option.or_none

omit [DecidableEq ι] in
theorem Holds.prev_eq {p e : ι × Frag} (h : q.Holds (a ++ p :: e :: b)) : (q.ent e.1).prev = some p.1 := by
  have hrow := h.ended
  rw [Ended, List.map_append, List.map_cons, List.map_cons, row_append] at hrow
  exact hrow.2.2.2.1

omit [DecidableEq ι] in
/-- The entry behind another one is allocated. -/
theorem Holds.live_head (h : q.Holds (a ++ b)) (hi : i ∈ (b.map Prod.fst).head?) : i ∈ q.live := by
  obtain ⟨y, hy, rfl⟩ := List.mem_map.mp (List.mem_of_mem_head? hi)
  exact h.live y (List.mem_append_right a hy)

/-- An entry behind another one is dequeued. -/
theorem Holds.dequeue {p e : ι × Frag} (h : q.Holds (a ++ p :: e :: b)) :
    ∃ q', q.dequeue e.1 = some q' ∧ q'.Holds (a ++ p :: b) ∧ q'.live ⊆ q.live := by
  have hprev := h.prev_eq
  have hnext : (q.ent e.1).next = (b.map Prod.fst).head? := by
    rw [List.append_cons] at h
    exact h.next_eq
  have hmem (y : ι × Frag) (hy : y ∈ a ++ p :: b) : y ∈ a ++ p :: e :: b := by
    simp only [List.mem_append, List.mem_cons] at hy ⊢
    tauto
  have hp := h.live p (by simp)
  have he := h.live e (by simp)
  have hb (j : ι) (hj : j ∈ (q.ent e.1).next) : j ∈ q.live := by
    rw [hnext] at hj
    rw [List.append_cons, List.append_cons] at h
    exact h.live_head hj
  rw [Ipq.dequeue, get_eq he, Option.bind_eq_bind, Option.bind_some, modifyAt_eq _ _ hb, Option.bind_eq_bind,
    Option.bind_some, hprev, Option.bind_eq_bind, Option.bind_some, modify_eq (q := q.change _ _) _ hp, Option.bind_some]
  refine ⟨_, rfl, ⟨?_, ?_, ?_, ?_⟩, Finset.erase_subset _ _⟩
  · rw [change_first, change_first, h.first]
    cases a <;> rfl
  · have hrow := h.ended
    rw [Ended, List.map_append, List.map_cons, List.map_cons] at hrow
    rw [Ended, List.map_append, List.map_cons]
    refine hrow.remove ?_ ?_
    · intro j
      dsimp only
      rcases eq_or_ne j p.1 with rfl | hne
      · rw [change_ent_self, if_pos rfl, hnext]
      · rw [change_ent_of_ne _ _ _ fun heq => hne (Option.some.inj heq).symm, if_neg hne]
        exact change_next _ _ _ fun _ => rfl
    · intro j
      dsimp only
      rw [change_prev, change_ent, hnext]
      · split <;> rfl
      · exact fun _ => rfl
  · intro y hy
    refine Finset.mem_erase.mpr ⟨?_, h.live y (hmem y hy)⟩
    rintro heq
    have hnodup := h.nodup
    rw [List.map_append, List.map_cons, List.map_cons, List.append_cons, List.nodup_middle, List.nodup_cons] at hnodup
    refine hnodup.1 (heq ▸ ?_)
    simpa using List.mem_map_of_mem (f := Prod.fst) hy
  · intro y hy
    dsimp only
    rw [change_frag, change_frag]
    · exact h.frag y (hmem y hy)
    · exact fun _ => rfl
    · exact fun _ => rfl

/-- An entry is trimmed. -/
theorem Holds.cut {e : ι × Frag} (h : q.Holds (a ++ e :: b)) (r : ℤ) :
    ∃ q', q.modify e.1 (fun e => { e with frag := e.frag.cut r }) = some q' ∧
      q'.Holds (a ++ (e.1, e.2.cut r) :: b) ∧ q'.live = q.live := by
  have hids : (a ++ (e.1, e.2.cut r) :: b).map Prod.fst = (a ++ e :: b).map Prod.fst := by
    rw [List.map_append, List.map_append, List.map_cons, List.map_cons]
  have hnodup := h.nodup
  rw [List.map_append, List.map_cons, List.nodup_middle, List.nodup_cons] at hnodup
  have hne (y : ι × Frag) (hy : y ∈ a ++ b) : y.1 ≠ e.1 := by
    intro heq
    refine hnodup.1 ?_
    rw [← heq, ← List.map_append]
    exact List.mem_map_of_mem hy
  refine ⟨_, modify_eq _ (h.live e (by simp)), ⟨?_, ?_, ?_, ?_⟩, rfl⟩
  · rw [change_first, hids, h.first]
  · rw [hids, Ended]
    exact h.ended.congr (fun j _ => change_next _ _ _ fun _ => rfl) fun j _ => change_prev _ _ _ fun _ => rfl
  · intro y hy
    obtain ⟨z, hz, hzy⟩ := List.mem_map.mp (hids ▸ List.mem_map_of_mem (f := Prod.fst) hy)
    exact hzy ▸ h.live z hz
  · intro y hy
    rcases List.mem_append.mp hy with hy | hy
    · rw [change_ent_of_ne _ _ _ fun heq => hne y (List.mem_append_left b hy) (Option.some.inj heq).symm]
      exact h.frag y (List.mem_append_left _ hy)
    rcases List.mem_cons.mp hy with rfl | hy
    · rw [change_ent_self]
      exact congrArg (Frag.cut r) (h.frag e (by simp))
    · rw [change_ent_of_ne _ _ _ fun heq => hne y (List.mem_append_right a hy) (Option.some.inj heq).symm]
      exact h.frag y (by simp [hy])

/-- A new entry is put in front. -/
theorem Holds.push {e : ι × Frag} (h : q.Holds l) (he : e.1 ∉ q.live) :
    ∃ q', q.insert e.1 e.2 none = some q' ∧ q'.Holds (e :: l) := by
  have hne (y : ι × Frag) (hy : y ∈ l) : y.1 ≠ e.1 := by
    intro heq
    exact he (heq ▸ h.live y hy)
  rw [Ipq.insert]
  dsimp only
  rw [modifyAt_eq]
  · rw [Option.bind_eq_bind, Option.bind_some]
    refine ⟨_, rfl, ⟨rfl, ?_, ?_, ?_⟩⟩
    · refine h.ended.push ?_ ?_ ?_
      · intro hmem
        obtain ⟨y, hy, heq⟩ := List.mem_map.mp hmem
        exact hne y hy heq
      · intro j
        dsimp only
        rw [change_next]
        · dsimp only
          rw [Function.update_apply, h.first]
          split <;> rfl
        · exact fun _ => rfl
      · intro j
        dsimp only
        rw [change_ent, h.first]
        dsimp only
        rw [Function.update_apply]
        split
        · rfl
        · split <;> rfl
    · intro y hy
      refine Finset.mem_insert.mpr ((List.mem_cons.mp hy).imp (congrArg Prod.fst) (h.live y))
    · intro y hy
      dsimp only
      rw [change_frag]
      · dsimp only
        rcases List.mem_cons.mp hy with rfl | hy
        · rw [Function.update_self]
        · rw [Function.update_of_ne (hne y hy), h.frag y hy]
      · exact fun _ => rfl
  · intro j hj
    rw [h.first] at hj
    have hl : q.Holds ([] ++ l) := h
    exact Finset.mem_insert_of_mem (hl.live_head hj)

/-- A new entry is put behind `p`. -/
theorem Holds.insert {p e : ι × Frag} (h : q.Holds (a ++ p :: b)) (he : e.1 ∉ q.live) :
    ∃ q', q.insert e.1 e.2 (some p.1) = some q' ∧ q'.Holds (a ++ p :: e :: b) := by
  have hne (y : ι × Frag) (hy : y ∈ a ++ p :: b) : y.1 ≠ e.1 := by
    intro heq
    exact he (heq ▸ h.live y hy)
  have hcases (y : ι × Frag) (hy : y ∈ a ++ p :: e :: b) : y = e ∨ y ∈ a ++ p :: b := by
    simp only [List.mem_append, List.mem_cons] at hy ⊢
    tauto
  have hp := h.live p (by simp)
  rw [Ipq.insert]
  dsimp only
  rw [get_eq (Finset.mem_insert_of_mem hp), Option.bind_eq_bind, Option.bind_some, modifyAt_eq]
  · rw [Option.bind_eq_bind, Option.bind_some, modify_eq (q := Ipq.change _ _ _) _ (Finset.mem_insert_of_mem hp)]
    refine ⟨_, rfl, ⟨?_, ?_, ?_, ?_⟩⟩
    · dsimp only [change_first]
      rw [h.first]
      cases a <;> rfl
    · have hrow := h.ended
      rw [Ended, List.map_append, List.map_cons] at hrow
      rw [Ended, List.map_append, List.map_cons, List.map_cons]
      refine hrow.insert ?_ ?_ ?_
      · intro hmem
        rw [← List.map_cons, ← List.map_append] at hmem
        obtain ⟨y, hy, heq⟩ := List.mem_map.mp hmem
        exact hne y hy heq
      · intro j
        dsimp only
        rcases eq_or_ne j p.1 with rfl | hj
        · rw [change_ent_self, if_pos rfl]
        · rw [change_ent_of_ne _ _ _ fun heq => hj (Option.some.inj heq).symm, if_neg hj, change_next]
          · dsimp only
            rw [Function.update_apply, h.next_eq]
            split <;> rfl
          · exact fun _ => rfl
      · intro j
        dsimp only
        rw [change_prev, change_ent, h.next_eq]
        · dsimp only
          rw [Function.update_apply]
          split
          · rfl
          · split <;> rfl
        · exact fun _ => rfl
    · exact fun y hy => Finset.mem_insert.mpr ((hcases y hy).imp (congrArg Prod.fst) (h.live y))
    · intro y hy
      rw [change_frag, change_frag]
      · dsimp only
        rcases hcases y hy with rfl | hy
        · rw [Function.update_self]
        · rw [Function.update_of_ne (hne y hy), h.frag y hy]
      · exact fun _ => rfl
      · exact fun _ => rfl
  · intro j hj
    dsimp only at hj
    rw [h.next_eq] at hj
    rw [List.append_cons] at h
    exact Finset.mem_insert_of_mem (h.live_head hj)

end Ipq

/-- What `Ipq.trim` makes of the entries. -/
def trimFrags (x : Frag) : List (ι × Frag) → List (ι × Frag)
  | [] => []
  | y :: rest =>
      if 0 < x.reach y.2 then
        if x.reach y.2 < y.2.netLen then (y.1, y.2.cut (x.reach y.2)) :: rest else trimFrags x rest
      else y :: rest

namespace Ipq

/-- The entries behind `p` are trimmed. -/
theorem Holds.trim {p : ι × Frag} (h : q.Holds (a ++ p :: b)) (hfuel : b.length < fuel) :
    ∃ q', Ipq.trim x fuel q (b.map Prod.fst).head? = some q' ∧ q'.Holds (a ++ p :: trimFrags x b) ∧
      q'.live ⊆ q.live := by
  induction b generalizing q fuel with
  | nil =>
      obtain ⟨fuel, rfl⟩ := Nat.exists_eq_add_of_lt hfuel
      exact ⟨q, rfl, h, Finset.Subset.refl _⟩
  | cons e b ih =>
      obtain ⟨fuel, rfl⟩ := Nat.exists_eq_succ_of_ne_zero (Nat.ne_zero_of_lt hfuel)
      have hfrag := h.frag e (by simp)
      have happ := List.append_cons a p (e :: b) ▸ h
      rw [List.map_cons, List.head?_cons, Ipq.trim, get_eq (h.live e (by simp)), Option.bind_eq_bind, Option.bind_some,
        hfrag, trimFrags]
      dsimp only
      split_ifs
      · obtain ⟨q', hq', hholds, hlive⟩ := happ.cut (x.reach e.2)
        rw [← List.append_cons] at hholds
        exact ⟨q', hq', hholds, hlive.subset⟩
      · obtain ⟨q₁, hq₁, hholds₁, hlive₁⟩ := h.dequeue
        obtain ⟨q', hq', hholds, hlive⟩ := ih hholds₁ (Nat.lt_of_succ_lt_succ hfuel)
        rw [hq₁, Option.bind_eq_bind, Option.bind_some, happ.next_eq]
        exact ⟨q', hq', hholds, hlive.trans hlive₁⟩
      · exact ⟨q, rfl, h, Finset.Subset.refl _⟩

/-- The first entry is trimmed. -/
theorem Holds.trim_first (h : q.Holds l) (hstay : ∀ y ∈ l.head?, 0 < x.reach y.2 → x.reach y.2 < y.2.netLen) :
    ∃ q', Ipq.trim x (fuel + 1) q (l.map Prod.fst).head? = some q' ∧ q'.Holds (trimFrags x l) ∧ q'.live ⊆ q.live := by
  cases l with
  | nil => exact ⟨q, rfl, h, Finset.Subset.refl _⟩
  | cons e b =>
      have hstay := hstay e rfl
      have happ : q.Holds ([] ++ e :: b) := h
      rw [List.map_cons, List.head?_cons, Ipq.trim, get_eq (h.live e (by simp)), Option.bind_eq_bind, Option.bind_some,
        h.frag e (by simp), trimFrags]
      dsimp only
      by_cases hpos : 0 < x.reach e.2
      · obtain ⟨q', hq', hholds, hlive⟩ := happ.cut (x.reach e.2)
        rw [if_pos hpos, if_pos (hstay hpos), if_pos hpos, if_pos (hstay hpos)]
        exact ⟨q', hq', hholds, hlive.subset⟩
      · rw [if_neg hpos, if_neg hpos]
        exact ⟨q, rfl, h, Finset.Subset.refl _⟩

/-- The fragment is put between the last of `a` and the first of `b`. -/
theorem Holds.put (h : q.Holds (a ++ b)) (hi : i ∉ q.live)
    (hstay : a = [] → ∀ y ∈ b.head?, 0 < x.reach y.2 → x.reach y.2 < y.2.netLen) :
    ∃ q', q.put i x (a.getLast?.map Prod.fst) (b.map Prod.fst).head? = some q' ∧
      q'.Holds (a ++ (i, x) :: trimFrags x b) := by
  have hfuel : b.length < q.live.card + 1 := by
    have hlen := h.length_le
    rw [List.length_append] at hlen
    omega
  rw [Ipq.put]
  rcases List.eq_nil_or_concat a with rfl | ⟨a, p, rfl⟩
  · obtain ⟨q₁, hq₁, hholds₁, hlive⟩ := @Holds.trim_first _ _ _ _ _ q.live.card h (hstay rfl)
    obtain ⟨q₂, hq₂, hholds₂⟩ := hholds₁.push (e := (i, x)) fun hmem => hi (hlive hmem)
    refine ⟨q₂, ?_, hholds₂⟩
    rw [List.nil_append] at hq₁
    rw [hq₁]
    exact hq₂
  · rw [List.concat_eq_append, List.append_assoc, List.singleton_append] at h
    obtain ⟨q₁, hq₁, hholds₁, hlive⟩ := h.trim (x := x) hfuel
    obtain ⟨q₂, hq₂, hholds₂⟩ := hholds₁.insert (e := (i, x)) fun hmem => hi (hlive hmem)
    refine ⟨q₂, ?_, ?_⟩
    · rw [hq₁, List.concat_eq_append, List.getLast?_append, List.getLast?_singleton]
      exact hq₂
    · rwa [List.concat_eq_append, List.append_assoc]

theorem Holds.fragAt (h : q.Holds (a ++ b)) : q.fragAt (a.getLast?.map Prod.fst) = some (a.getLast?.map Prod.snd) := by
  rcases List.eq_nil_or_concat a with rfl | ⟨a, p, rfl⟩
  · rfl
  · have hp : p ∈ a.concat p ++ b := by
      rw [List.concat_eq_append]
      simp
    rw [List.concat_eq_append, List.getLast?_append, List.getLast?_singleton, Option.some_or, Option.map_some, Ipq.fragAt,
      get_eq (h.live p hp), Option.map_some, h.frag p hp, Option.map_some]

/-! ## The end of the function -/

theorem Walk.whole {p pos : Option ι} (h : q.Walk pos l) (hfuel : l.length < fuel) (next : ℤ) :
    ∃ r, q.whole fuel p pos next = some r ∧ ∀ z ∈ r, z.1 = (l.getLast?.map Prod.fst).or p := by
  induction l generalizing p pos fuel next with
  | nil =>
      obtain ⟨fuel, rfl⟩ := Nat.exists_eq_add_of_lt hfuel
      obtain rfl : pos = none := h.1
      refine ⟨_, rfl, ?_⟩
      rintro _ ⟨rfl⟩
      rfl
  | cons y l ih =>
      obtain ⟨fuel, rfl⟩ := Nat.exists_eq_succ_of_ne_zero (Nat.ne_zero_of_lt hfuel)
      obtain ⟨rfl, hlive, -, hwalk⟩ := h.tail
      rw [Ipq.whole, get_eq hlive, Option.bind_eq_bind, Option.bind_some]
      split_ifs
      · exact ⟨none, rfl, fun z hz => by cases hz⟩
      · obtain ⟨r, hr, hlast⟩ := ih (p := some y.1) hwalk (Nat.lt_of_succ_lt_succ hfuel) (next + (q.ent y.1).frag.netLen)
        refine ⟨r, hr, fun z hz => ?_⟩
        rw [hlast z hz, List.getLast?_cons]
        cases l.getLast? <;> rfl

theorem Walk.join {pos : Option ι} (h : q.Walk pos l) (hfuel : l.length < fuel) (m : List Mbuf) :
    ∃ m', q.join fuel m pos = some m' := by
  induction l generalizing pos fuel m with
  | nil =>
      obtain ⟨fuel, rfl⟩ := Nat.exists_eq_add_of_lt hfuel
      obtain rfl : pos = none := h.1
      exact ⟨m, rfl⟩
  | cons y l ih =>
      obtain ⟨fuel, rfl⟩ := Nat.exists_eq_succ_of_ne_zero (Nat.ne_zero_of_lt hfuel)
      obtain ⟨rfl, hlive, -, hwalk⟩ := h.tail
      rw [Ipq.join, get_eq hlive, Option.bind_eq_bind, Option.bind_some]
      exact ih hwalk (Nat.lt_of_succ_lt_succ hfuel) _

/-- The queue stays as it is, or is gone. -/
theorem Holds.finish (h : q.Holds l) (hne : l ≠ []) (hm : ∀ y ∈ l, y.2.ipqeM ≠ []) :
    ∃ r, q.finish = some r ∧ ∀ q' ∈ r.2, q' = q := by
  have hstays (q' : Ipq ι) (hq' : q' ∈ some q) : q' = q := (Option.some.inj hq').symm
  have hgone (q' : Ipq ι) (hq' : q' ∈ (none : Option (Ipq ι))) : q' = q := by cases hq'
  have hfuel := Nat.lt_succ_of_le h.length_le
  obtain ⟨r, hr, hlast⟩ := h.walk.whole (p := none) hfuel 0
  rw [Ipq.finish, hr, Option.bind_eq_bind, Option.bind_some]
  match r with
  | none => exact ⟨_, rfl, hstays⟩
  | some (p, next) =>
      have hp := hlast _ rfl
      rw [List.getLast?_eq_some_getLast hne, Option.map_some, Option.some_or] at hp
      obtain ⟨y, l, rfl⟩ := List.exists_cons_of_ne_nil hne
      have hfirst : q.first = some y.1 := h.first
      dsimp only at hp ⊢
      rw [hp, Option.bind_eq_bind, Option.bind_some, get_eq (h.live _ (List.getLast_mem hne)), Option.bind_eq_bind,
        Option.bind_some, hfirst, Option.bind_eq_bind, Option.bind_some, get_eq (h.live y List.mem_cons_self),
        Option.bind_some, h.frag y List.mem_cons_self]
      split_ifs
      · exact ⟨_, rfl, hstays⟩
      · exact ⟨_, rfl, hgone⟩
      · obtain ⟨m, t, hmt⟩ := List.exists_cons_of_ne_nil (hm y List.mem_cons_self)
        obtain ⟨m', hm'⟩ := h.walk.tail.2.2.2.join (Nat.lt_of_succ_lt hfuel) (mCat [m] t)
        rw [hmt]
        dsimp only
        rw [hm', Option.bind_some]
        exact ⟨_, rfl, hgone⟩

end Ipq

end

end Shaunos.Net
