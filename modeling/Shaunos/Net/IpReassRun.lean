import Shaunos.Common.Run
import Shaunos.Net.IpReass

/-!
# Runs of `ip_reass`

Reference: `Kernel/netinet/ip_input.c` (`ip_reass`).

The list of the entries ends, and is no ring. The first entry leads back to itself, so that the queue still leads to it
when it is dequeued.

* `fragsRight_of_ok` — the queue in every run that no slip spoils.
-/

namespace Shaunos.Net

section

variable {ι : Type} [DecidableEq ι]

/-! ## What is to be shown -/

/-- A call of `ip_reass`: the entry, its fragment, and whether there is memory for a queue. -/
structure FragCall (ι : Type) where
  ipqe : ι
  frag : Frag
  alloc : Bool

/-- The queue, and the offset and the bytes of every fragment that came. -/
structure FragLog (ι : Type) where
  fp : Option (Ipq ι)
  rcvd : List (ℕ × List Byte)

def fragStart : FragLog ι := ⟨none, []⟩

def Frag.off (x : Frag) : ℕ := x.ipqeIp.ipOff.toNat

/-- The offset behind a fragment. -/
def Frag.stop (x : Frag) : ℕ := x.off + x.ipqeIp.ipLen.toNat

def Frag.data (x : Frag) : List Byte := chainBytes x.ipqeM

/-- A fragment comes. -/
def reassemble (s : FragLog ι) (c : FragCall ι) : Option (FragLog ι) :=
  (ipReass c.ipqe c.frag c.alloc s.fp).map fun r => ⟨r.2, (c.frag.off, c.frag.strip.data) :: s.rcvd⟩

/-- The links of `l` make a ring. -/
def Ipq.Ring (q : Ipq ι) (l : List ι) : Prop :=
  Row (fun i => (q.ent i).next) (fun i => (q.ent i).prev) l.getLast? l l.head?

/-- Every byte comes from a fragment that has it at this offset. -/
def Frag.From (rcvd : List (ℕ × List Byte)) (x : Frag) : Prop :=
  ∀ k v, x.data[k]? = some v → ∃ r ∈ rcvd, ∃ j, r.1 + j = x.off + k ∧ r.2[j]? = some v

/-- The entries of the queue. -/
structure FragqRight (rcvd : List (ℕ × List Byte)) (q : Ipq ι) (l : List ι) : Prop where
  first : q.first = l.head?
  live : ∀ i ∈ l, i ∈ q.live
  sorted : l.Pairwise fun i j => (q.ent i).frag.off ≤ (q.ent j).frag.off
  apart : l.Pairwise fun i j => (q.ent i).frag.stop ≤ (q.ent j).frag.off
  bytes : ∀ i ∈ l, (q.ent i).frag.From rcvd

/-- As long as there is a queue, it is right, with links of this kind. -/
def FragsRight (links : Ipq ι → List ι → Prop) (s : FragLog ι) : Prop :=
  ∀ q ∈ s.fp, ∃ l, links q l ∧ FragqRight s.rcvd q l

/-- What is made of `x`, where `p` may reach into it, is right: no overlap is seen only where there is none, and what is
cut has all of the overlap, with fields that change by so much. -/
def OverlapRight (p x : Frag) : Prop :=
  if 0 < p.reach x then
    p.reach x < x.netLen → ((x.cut (p.reach x)).off : ℤ) = x.off + p.reach x ∧
      p.stop ≤ (x.cut (p.reach x)).off ∧ (x.cut (p.reach x)).stop ≤ x.stop
  else p.stop ≤ x.off

/-- The same for all that the loop comes to. -/
def TrimRight (x : Frag) : List (ι × Frag) → Prop
  | [] => True
  | y :: rest => OverlapRight x y.2 ∧ (0 < x.reach y.2 → y.2.netLen ≤ x.reach y.2 → TrimRight x rest)

/-- The entries that do not start behind `x`. -/
def fragsBefore (x : Frag) (l : List (ι × Frag)) : List (ι × Frag) :=
  l.takeWhile fun y => !x.ipqeIp.ipOff.slt y.2.ipqeIp.ipOff

def fragsBehind (x : Frag) (l : List (ι × Frag)) : List (ι × Frag) :=
  l.dropWhile fun y => !x.ipqeIp.ipOff.slt y.2.ipqeIp.ipOff

/-- `x'` is put into the queue for `x`: what is made of overlaps is right, and the first entry is not dequeued. -/
structure InsertRight (l : List (ι × Frag)) (x x' : Frag) : Prop where
  before : ∀ p ∈ (fragsBefore x l).getLast?, OverlapRight p.2 x
  behind : TrimRight x' (fragsBehind x l)
  head : fragsBefore x l = [] → ∀ y ∈ l.head?, 0 < x'.reach y.2 → x'.reach y.2 < y.2.netLen

/-- There is an mbuf, and the entry is one that `kmalloc` has just found. -/
structure FragCall.Fits (s : FragLog ι) (c : FragCall ι) : Prop where
  mbuf : c.frag.ipqeM ≠ []
  fresh : ∀ q ∈ s.fp, c.ipqe ∉ q.live

/-- The calls that no slip spoils. -/
structure FragCall.Ok (s : FragLog ι) (c : FragCall ι) : Prop extends c.Fits s where
  right : ∀ q ∈ s.fp, ∀ x' ∈ c.frag.strip.behind ((fragsBefore c.frag.strip q.frags).getLast?.map Prod.snd),
    InsertRight q.frags c.frag.strip x'

instance OverlapRight.decidable (p x : Frag) : Decidable (OverlapRight p x) := by
  unfold OverlapRight
  infer_instance

instance TrimRight.decidable (x : Frag) : ∀ l : List (ι × Frag), Decidable (TrimRight x l)
  | [] => isTrue trivial
  | y :: rest =>
      have := TrimRight.decidable x rest
      inferInstanceAs (Decidable (OverlapRight x y.2 ∧ (0 < x.reach y.2 → y.2.netLen ≤ x.reach y.2 → TrimRight x rest)))

instance InsertRight.decidable (l : List (ι × Frag)) (x x' : Frag) : Decidable (InsertRight l x x') :=
  decidable_of_iff ((∀ p ∈ (fragsBefore x l).getLast?, OverlapRight p.2 x) ∧ TrimRight x' (fragsBehind x l) ∧
      (fragsBefore x l = [] → ∀ y ∈ l.head?, 0 < x'.reach y.2 → x'.reach y.2 < y.2.netLen))
    ⟨fun h => ⟨h.1, h.2.1, h.2.2⟩, fun h => ⟨h.before, h.behind, h.head⟩⟩

instance FragCall.decidableFits (s : FragLog ι) (c : FragCall ι) : Decidable (c.Fits s) :=
  decidable_of_iff (c.frag.ipqeM ≠ [] ∧ ∀ q ∈ s.fp, c.ipqe ∉ q.live)
    ⟨fun h => ⟨h.1, h.2⟩, fun h => ⟨h.mbuf, h.fresh⟩⟩

instance FragCall.decidableOk (s : FragLog ι) (c : FragCall ι) : Decidable (c.Ok s) :=
  decidable_of_iff (c.Fits s ∧ ∀ q ∈ s.fp,
      ∀ x' ∈ c.frag.strip.behind ((fragsBefore c.frag.strip q.frags).getLast?.map Prod.snd),
        InsertRight q.frags c.frag.strip x')
    ⟨fun h => ⟨h.1, h.2⟩, fun h => ⟨h.toFits, h.right⟩⟩

/-! ## The fragments -/

variable {q : Ipq ι} {l a b : List (ι × Frag)} {p x x' : Frag} {rcvd : List (ℕ × List Byte)}

/-- `z` is a part of `x`. -/
structure Frag.Part (x z : Frag) : Prop where
  off : x.off ≤ z.off
  stop : z.stop ≤ x.stop
  bytes : ∀ {rcvd}, x.From rcvd → z.From rcvd
  mbuf : x.ipqeM ≠ [] → z.ipqeM ≠ []

theorem Frag.Part.refl (x : Frag) : x.Part x := ⟨Nat.le_refl _, Nat.le_refl _, id, id⟩

theorem OverlapRight.apart (h : OverlapRight p x) (hr : ¬ 0 < p.reach x) : p.stop ≤ x.off := by
  rwa [OverlapRight, if_neg hr] at h

theorem OverlapRight.part (h : OverlapRight p x) (hr : 0 < p.reach x) (hlt : p.reach x < x.netLen) :
    p.stop ≤ (x.cut (p.reach x)).off ∧ x.Part (x.cut (p.reach x)) := by
  rw [OverlapRight, if_pos hr] at h
  obtain ⟨hoff, hle, hstop⟩ := h hlt
  refine ⟨hle, by omega, hstop, ?_, ?_⟩
  · intro rcvd hfrom k v hv
    have hdata : (x.cut (p.reach x)).data = x.data.drop (p.reach x).toNat := by
      rw [Frag.data, Frag.cut, chainBytes_mAdj, adjust, if_pos hr.le, Frag.data]
    rw [hdata, List.getElem?_drop] at hv
    obtain ⟨r, hr', j, hj, hget⟩ := hfrom _ v hv
    exact ⟨r, hr', j, by omega, hget⟩
  · intro hne hnil
    have hlen := length_mAdj x.ipqeM (p.reach x)
    rw [show mAdj x.ipqeM (p.reach x) = [] from hnil, List.length_nil] at hlen
    exact hne (List.eq_nil_of_length_eq_zero hlen.symm)

theorem Frag.From.mono (h : x.From rcvd) (r : ℕ × List Byte) : x.From (r :: rcvd) := by
  intro k v hv
  obtain ⟨r', hr', hj⟩ := h k v hv
  exact ⟨r', List.mem_cons_of_mem r hr', hj⟩

/-- A fragment that comes has its bytes at its offset. -/
theorem Frag.from_self (x : Frag) (rcvd : List (ℕ × List Byte)) : x.From ((x.off, x.data) :: rcvd) :=
  fun k _ hv => ⟨_, List.mem_cons_self, k, rfl, hv⟩

/-- What the entries of a queue keep. -/
structure FragsInv (rcvd : List (ℕ × List Byte)) (l : List (ι × Frag)) : Prop where
  apart : l.Pairwise fun y z => y.2.stop ≤ z.2.off
  bytes : ∀ y ∈ l, y.2.From rcvd
  mbuf : ∀ y ∈ l, y.2.ipqeM ≠ []

omit [DecidableEq ι] in
/-- What is left behind `x` are parts of the entries, and comes behind `x`. -/
theorem trimFrags_spec (h : b.Pairwise fun y z => y.2.stop ≤ z.2.off) (hright : TrimRight x b) :
    (trimFrags x b).Pairwise (fun y z => y.2.stop ≤ z.2.off) ∧
      ∀ z ∈ trimFrags x b, x.stop ≤ z.2.off ∧ ∃ y ∈ b, y.2.Part z.2 := by
  induction b with
  | nil => exact ⟨List.Pairwise.nil, fun z hz => absurd hz List.not_mem_nil⟩
  | cons y rest ih =>
      obtain ⟨hy, hrest⟩ := List.pairwise_cons.mp h
      obtain ⟨hoverlap, htrim⟩ := hright
      have hbehind (n : ℕ) (hn : n ≤ y.2.stop) (z : ι × Frag) (hz : z ∈ rest) : n ≤ z.2.off := hn.trans (hy z hz)
      rw [trimFrags]
      split_ifs with hpos hlt
      · obtain ⟨hle, hpart⟩ := hoverlap.part hpos hlt
        refine ⟨List.pairwise_cons.mpr ⟨hbehind _ hpart.stop, hrest⟩, ?_⟩
        intro z hz
        rcases List.mem_cons.mp hz with rfl | hz
        · exact ⟨hle, y, List.mem_cons_self, hpart⟩
        · refine ⟨hbehind _ (le_trans hle (le_trans (Nat.le_add_right _ _) hpart.stop)) z hz, z, ?_, .refl _⟩
          exact List.mem_cons_of_mem y hz
      · obtain ⟨hpair, hparts⟩ := ih hrest (htrim hpos (not_lt.mp hlt))
        refine ⟨hpair, fun z hz => ?_⟩
        obtain ⟨hle, w, hw, hpart⟩ := hparts z hz
        exact ⟨hle, w, List.mem_cons_of_mem y hw, hpart⟩
      · have hle := hoverlap.apart hpos
        refine ⟨h, fun z hz => ⟨?_, z, hz, .refl _⟩⟩
        rcases List.mem_cons.mp hz with rfl | hz
        · exact hle
        · exact hbehind _ (le_trans hle (Nat.le_add_right _ _)) z hz

omit [DecidableEq ι] in
/-- A new entry, and the entries behind it that it leaves. -/
theorem FragsInv.insert {e : ι × Frag} (h : FragsInv rcvd (a ++ b)) (hbytes : e.2.From rcvd) (hmbuf : e.2.ipqeM ≠ [])
    (hbefore : ∀ p ∈ a.getLast?, p.2.stop ≤ e.2.off) (hright : TrimRight e.2 b) :
    FragsInv rcvd (a ++ e :: trimFrags e.2 b) := by
  obtain ⟨hpa, hpb, hab⟩ := List.pairwise_append.mp h.apart
  obtain ⟨hpair, hparts⟩ := trimFrags_spec hpb hright
  have hall (y : ι × Frag) (hy : y ∈ a) : y.2.stop ≤ e.2.off := by
    rcases List.eq_nil_or_concat a with rfl | ⟨a, p, rfl⟩
    · cases hy
    · rw [List.concat_eq_append] at hy hpa hbefore
      have hp : p.2.stop ≤ e.2.off := hbefore p (by rw [List.getLast?_append]; rfl)
      rcases List.mem_append.mp hy with hy | hy
      · have hyp := (List.pairwise_append.mp hpa).2.2 y hy p List.mem_cons_self
        exact hyp.trans ((Nat.le_add_right _ _).trans hp)
      · rwa [List.mem_singleton.mp hy]
  have hsource (z : ι × Frag) (hz : z ∈ a ++ e :: trimFrags e.2 b) : z = e ∨ ∃ y ∈ a ++ b, y.2.Part z.2 := by
    rcases List.mem_append.mp hz with hz | hz
    · exact .inr ⟨z, List.mem_append_left b hz, .refl _⟩
    rcases List.mem_cons.mp hz with rfl | hz
    · exact .inl rfl
    · obtain ⟨-, y, hy, hpart⟩ := hparts z hz
      exact .inr ⟨y, List.mem_append_right a hy, hpart⟩
  refine ⟨List.pairwise_append.mpr ⟨hpa, List.pairwise_cons.mpr ⟨fun z hz => (hparts z hz).1, hpair⟩, ?_⟩, ?_, ?_⟩
  · intro y hy z hz
    rcases List.mem_cons.mp hz with rfl | hz
    · exact hall y hy
    · exact (hall y hy).trans ((Nat.le_add_right _ _).trans (hparts z hz).1)
  · intro z hz
    rcases hsource z hz with rfl | ⟨y, hy, hpart⟩
    · exact hbytes
    · exact hpart.bytes (h.bytes y hy)
  · intro z hz
    rcases hsource z hz with rfl | ⟨y, hy, hpart⟩
    · exact hmbuf
    · exact hpart.mbuf (h.mbuf y hy)

/-! ## Main results -/

/-- What is put into the queue is a part of the fragment, and comes behind the entry before it. -/
theorem behind_spec {before : Option Frag} (hx' : x' ∈ x.behind before) (hright : ∀ p ∈ before, OverlapRight p x) :
    x.Part x' ∧ ∀ p ∈ before, p.stop ≤ x'.off := by
  cases before with
  | none =>
      obtain rfl : x = x' := Option.some.inj hx'
      exact ⟨.refl x, fun p hp => by cases hp⟩
  | some p =>
      have hover := hright p rfl
      rw [Frag.behind] at hx'
      split_ifs at hx' with hpos hle
      · cases hx'
      · obtain rfl : x.cut (p.reach x) = x' := Option.some.inj hx'
        obtain ⟨hstop, hpart⟩ := hover.part hpos (not_le.mp hle)
        refine ⟨hpart, ?_⟩
        rintro _ ⟨rfl⟩
        exact hstop
      · obtain rfl : x = x' := Option.some.inj hx'
        refine ⟨.refl x, ?_⟩
        rintro _ ⟨rfl⟩
        exact hover.apart hpos

/-- The queue, and what is known of its entries. -/
def FragLog.Inv (s : FragLog ι) : Prop := ∀ q ∈ s.fp, ∃ l, q.Holds l ∧ FragsInv s.rcvd l

/-- The entry is in the queue, and the rest of the function follows. -/
theorem finish_inv {r : ℕ × List Byte} (h : q.Holds l) (hne : l ≠ []) (hinv : FragsInv (r :: rcvd) l) :
    ∃ t, (q.finish.map fun res => (⟨res.2, r :: rcvd⟩ : FragLog ι)) = some t ∧ t.Inv := by
  obtain ⟨res, hres, hsame⟩ := h.finish hne hinv.mbuf
  rw [hres]
  refine ⟨_, rfl, ?_⟩
  intro q' hq'
  obtain rfl := hsame q' hq'
  exact ⟨l, h, hinv⟩

theorem strip_ne_nil (h : x.ipqeM ≠ []) : x.strip.ipqeM ≠ [] := by
  obtain ⟨m, t, hmt⟩ := List.exists_cons_of_ne_nil h
  rw [Frag.strip]
  dsimp only
  rw [hmt]
  exact List.cons_ne_nil _ _

/-- A fragment that comes to a queue. -/
theorem reassemble_some {c : FragCall ι} (h : q.Holds l) (hinv : FragsInv rcvd l) (hok : c.Ok ⟨some q, rcvd⟩) :
    ∃ t, reassemble ⟨some q, rcvd⟩ c = some t ∧ t.Inv := by
  have hinv : FragsInv ((c.frag.off, c.frag.strip.data) :: rcvd) l :=
    ⟨hinv.apart, fun y hy => (hinv.bytes y hy).mono _, hinv.mbuf⟩
  have hself : c.frag.strip.From ((c.frag.off, c.frag.strip.data) :: rcvd) := c.frag.strip.from_self rcvd
  have hright := hok.right q rfl
  have hmbuf := strip_ne_nil hok.mbuf
  have hfuel : l.length < q.live.card + 1 := Nat.lt_succ_of_le h.length_le
  have hsearch := @Ipq.search_eq _ _ _ _ _ c.frag.strip.ipqeIp.ipOff none _ h.walk hfuel
  have happ : fragsBefore c.frag.strip l ++ fragsBehind c.frag.strip l = l := List.takeWhile_append_dropWhile
  rw [h.frags_eq] at hright
  rw [← fragsBefore, ← fragsBehind, Option.or_none, ← List.head?_map] at hsearch
  have hparts : q.Holds (fragsBefore c.frag.strip l ++ fragsBehind c.frag.strip l) := by rwa [happ]
  have hinvs : FragsInv ((c.frag.off, c.frag.strip.data) :: rcvd)
      (fragsBefore c.frag.strip l ++ fragsBehind c.frag.strip l) := by rwa [happ]
  rw [reassemble, ipReass]
  dsimp only
  rw [hsearch, Option.bind_eq_bind, Option.bind_some]
  dsimp only
  rw [hparts.fragAt, Option.bind_eq_bind, Option.bind_some]
  cases hbehind : c.frag.strip.behind ((fragsBefore c.frag.strip l).getLast?.map Prod.snd) with
  | none =>
      refine ⟨_, rfl, ?_⟩
      rintro _ ⟨rfl⟩
      exact ⟨l, h, hinv⟩
  | some x' =>
      obtain ⟨hbefore, htrim, hhead⟩ := hright x' hbehind
      obtain ⟨hpart, hstop⟩ := behind_spec hbehind fun p hp => by
        obtain ⟨y, hy, rfl⟩ := Option.map_eq_some_iff.mp hp
        exact hbefore y hy
      have hstay (ha : fragsBefore c.frag.strip l = []) :
          ∀ y ∈ (fragsBehind c.frag.strip l).head?, 0 < x'.reach y.2 → x'.reach y.2 < y.2.netLen := by
        rw [ha, List.nil_append] at happ
        rw [happ]
        exact hhead ha
      obtain ⟨q', hq', hholds⟩ := hparts.put (hok.fresh q rfl) hstay
      have hinv' := FragsInv.insert (e := (c.ipqe, x')) hinvs (hpart.bytes hself) (hpart.mbuf hmbuf)
        (fun p hp => hstop p.2 (Option.mem_map_of_mem Prod.snd hp)) htrim
      dsimp only
      rw [hq', Option.bind_eq_bind, Option.bind_some]
      exact finish_inv hholds (by simp) hinv'

/-- The first fragment of a queue. -/
theorem reassemble_none {c : FragCall ι} (hmbuf : c.frag.ipqeM ≠ []) :
    ∃ t, reassemble ⟨none, rcvd⟩ c = some t ∧ t.Inv := by
  rw [reassemble, ipReass]
  dsimp only
  cases c.alloc with
  | false => exact ⟨_, rfl, fun q hq => by cases hq⟩
  | true =>
      have hempty : (newIpq c.frag.strip.ipqeIp ⟨none, none, c.frag.strip⟩ : Ipq ι).Holds [] :=
        ⟨rfl, trivial, fun x hx => absurd hx List.not_mem_nil, fun x hx => absurd hx List.not_mem_nil⟩
      obtain ⟨q, hq, hholds⟩ := hempty.push (e := (c.ipqe, c.frag.strip)) (Finset.notMem_empty _)
      have hself := c.frag.strip.from_self rcvd
      rw [if_pos rfl, hq, Option.bind_eq_bind, Option.bind_some]
      refine finish_inv hholds (List.cons_ne_nil _ _) ⟨List.pairwise_singleton _ _, ?_, ?_⟩
      · intro y hy
        rw [List.mem_singleton.mp hy]
        exact hself
      · intro y hy
        rw [List.mem_singleton.mp hy]
        exact strip_ne_nil hmbuf

omit [DecidableEq ι] in
/-- A queue that holds such entries is right. -/
theorem FragLog.Inv.right {s : FragLog ι} (h : s.Inv) : FragsRight Ipq.Ended s := by
  intro q hq
  obtain ⟨l, hholds, hinv⟩ := h q hq
  have hapart : (l.map Prod.fst).Pairwise fun i j => (q.ent i).frag.stop ≤ (q.ent j).frag.off := by
    refine List.pairwise_map.mpr (hinv.apart.imp_of_mem ?_)
    intro y z hy hz hle
    rwa [hholds.frag y hy, hholds.frag z hz]
  refine ⟨_, hholds.ended, hholds.first, ?_, hapart.imp (le_trans (Nat.le_add_right _ _)), hapart, ?_⟩
  · intro i hi
    obtain ⟨y, hy, rfl⟩ := List.mem_map.mp hi
    exact hholds.live y hy
  · intro i hi
    obtain ⟨y, hy, rfl⟩ := List.mem_map.mp hi
    rw [hholds.frag y hy]
    exact hinv.bytes y hy

/-- A fragment of `n` bytes, as it comes from `ip_ours`. -/
def plainFrag (ipqe : ℕ) (ipOff ipLen : BitVec 16) : FragCall ℕ where
  ipqe
  frag := {
    ipqeIp := ⟨0x45, 0, ipLen, 1, ipOff, 64, 17, 0, 1, 2⟩
    ipqeM := [⟨0, true, false, some (20 + ipLen.toNat), 0, List.replicate (20 + ipLen.toNat) 7⟩]
    ipqMff := true }
  alloc := true

/-- The third fragment is trimmed to what the first does not have, and the second to what the third does not have. -/
def overlappingFrags : List (FragCall ℕ) := [plainFrag 0 2056 4112, plainFrag 1 6168 4112, plainFrag 2 4112 4112]

end

end Shaunos.Net
