import Shaunos.Common.Intervals
import Shaunos.Common.Run
import Shaunos.Common.Serial
import Shaunos.Net.Tcp

/-!
# The reassembly queue

Reference: `Kernel/netinet/tcp_input.c` (`tcp_reass`), `Include/kernel/kernel.h` (`insque`, `remque`).

* `reassInsert_spec` — a segment is put into the queue as an interval is put into a list of intervals;
* `inOrder_of_reach` — what the queue and the receive buffer hold in every state reached.
-/

namespace Shaunos.Net

/-! ## The code -/

/-- The sequence number behind a segment. -/
def segEnd (ti : Tcpiphdr) : BitVec 32 := ti.tiSeq + ti.tiLen.signExtend 32

/-- `i` bytes of a segment are cut off at the front. -/
def frontTrim (i : ℤ) (q : Tcpiphdr × List Mbuf) : Tcpiphdr × List Mbuf :=
  ({ q.1 with
      tiSeq := q.1.tiSeq + BitVec.ofInt 32 i
      tiLen := q.1.tiLen - BitVec.ofInt 16 i }, mAdj q.2 i)

/-- The second loop of `tcp_reass`: the segments behind one that ends at `stop`. -/
def reassCut (stop : BitVec 32) : List (Tcpiphdr × List Mbuf) → List (Tcpiphdr × List Mbuf)
  | [] => []
  | q :: rest =>
      let i := (stop - q.1.tiSeq).toInt
      if i ≤ 0 then q :: rest
      else if i < q.1.tiLen.toInt then frontTrim i q :: rest
      else reassCut stop rest

/-- `ti` goes between `prev` and `next`. It is freed when `prev` has all of it. -/
def reassPlace (ti : Tcpiphdr × List Mbuf) (prev : Option Tcpiphdr)
    (next : List (Tcpiphdr × List Mbuf)) : Option (List (Tcpiphdr × List Mbuf)) :=
  let i := prev.elim 0 fun p => (segEnd p - ti.1.tiSeq).toInt
  if i > 0 then
    if i ≥ ti.1.tiLen.toInt then none
    else
      let ti := frontTrim i ti
      some (ti :: reassCut (segEnd ti.1) next)
  else some (ti :: reassCut (segEnd ti.1) next)

/-- The first loop of `tcp_reass`, at the segments behind `prev`. -/
def reassInsert (ti : Tcpiphdr × List Mbuf) :
    (prev : Option Tcpiphdr) → List (Tcpiphdr × List Mbuf) → Option (List (Tcpiphdr × List Mbuf))
  | prev, [] => reassPlace ti prev []
  | prev, q :: rest =>
      if seqGT q.1.tiSeq ti.1.tiSeq then reassPlace ti prev (q :: rest)
      else (reassInsert ti (some q.1) rest).map (q :: ·)

/-- `present`: the value returned is `ti_flags & TH_FIN`. `remque` has cleared the links of `ti` when the
loop follows them, so that it goes on with a segment at address 0. Its `ti_seq` is the word `null` of the
first page, which is mapped; nothing is said of what happens if the loop takes it. -/
def reassPresent (null : BitVec 32) (tp : Tcpcb) (so : Socket) : Option (Bool × Tcpcb × Socket) :=
  match tp.segs with
  | [] => some (false, tp, so)
  | (ti, m) :: rest =>
      if ¬ tp.tState.haveRcvdSyn ∨ ti.tiSeq ≠ tp.rcvNxt ∨
          (tp.tState = .synReceived ∧ ti.tiLen ≠ 0) then some (false, tp, so)
      else
        let tp := { tp with rcvNxt := tp.rcvNxt + ti.tiLen.signExtend 32, segs := rest }
        let so := if so.ssCantRcvMore then so else { so with soRcv := sbappend so.soRcv m }
        if null = tp.rcvNxt then none else some (ti.tiFlags.thFin, tp, so)

/-- `tcp_reass`. There is no segment when a connection has just been made. -/
def tcpReass (null : BitVec 32) (tp : Tcpcb) (so : Socket) (ti : Option (Tcpiphdr × List Mbuf)) :
    Option (Bool × Tcpcb × Socket) :=
  match ti with
  | none => reassPresent null tp so
  | some ti =>
      match reassInsert ti none tp.segs with
      | none => some (false, tp, so)
      | some segs => reassPresent null { tp with segs := segs } so

/-! ## Runs -/

/-- A segment of a stream: the bytes from place `first` up to place `last`. -/
structure Delivery where
  first : ℕ
  last : ℕ
  ti : Tcpiphdr
  m : List Mbuf

/-- A connection, with the number of bytes that `rcv_nxt` has gone over and the parts of the stream that
were delivered. -/
structure ReassLog where
  tp : Tcpcb
  so : Socket
  taken : ℕ
  arrived : List (ℕ × ℕ)

/-- A segment is delivered. -/
def deliver (null : BitVec 32) (s : ReassLog) (d : Delivery) : Option ReassLog :=
  (tcpReass null s.tp s.so (some (d.ti, d.m))).map fun (_, tp, so) =>
    { tp := tp
      so := so
      taken := s.taken + (tp.rcvNxt - s.tp.rcvNxt).toNat
      arrived := (d.first, d.last) :: s.arrived }

/-- Nothing is queued or delivered. -/
def reassStart (tp : Tcpcb) (so : Socket) : ReassLog where
  tp := tp
  so := so
  taken := 0
  arrived := []

section

variable (isn : BitVec 32) (stream : List Byte)

/-- A segment with the bytes of an interval of the stream, whose place 0 has the number `isn`. -/
structure Carries (p : ℕ × ℕ) (q : Tcpiphdr × List Mbuf) : Prop where
  lt : p.1 < p.2
  le : p.2 ≤ stream.length
  seq : q.1.tiSeq = isn + BitVec.ofNat 32 p.1
  len : q.1.tiLen = BitVec.ofNat 16 (p.2 - p.1)
  bytes : chainBytes q.2 = slice p.1 p.2 stream

instance (p : ℕ × ℕ) (q : Tcpiphdr × List Mbuf) : Decidable (Carries isn stream p q) :=
  decidable_of_iff (p.1 < p.2 ∧ p.2 ≤ stream.length ∧ q.1.tiSeq = isn + BitVec.ofNat 32 p.1 ∧
      q.1.tiLen = BitVec.ofNat 16 (p.2 - p.1) ∧ chainBytes q.2 = slice p.1 p.2 stream)
    ⟨fun ⟨h₁, h₂, h₃, h₄, h₅⟩ => ⟨h₁, h₂, h₃, h₄, h₅⟩, fun ⟨h₁, h₂, h₃, h₄, h₅⟩ => ⟨h₁, h₂, h₃, h₄, h₅⟩⟩

/-- The buffer has the stream up to `rcv_nxt`, and the queue has segments of the stream that are sorted,
do not overlap and start behind `rcv_nxt`. Once all of the stream has arrived, the buffer has all of it
and the queue is empty. -/
structure InOrder (base : List Byte) (s : ReassLog) : Prop where
  rcvNxt : s.tp.rcvNxt = isn + BitVec.ofNat 32 s.taken
  bytes : s.so.soRcv.bytes = base ++ stream.take s.taken
  queue : ∃ ivls, Spaced (s.taken + 1) ivls ∧ List.Forall₂ (Carries isn stream) ivls s.tp.segs
  all : (∀ x < stream.length, Covers s.arrived x) →
    s.so.soRcv.bytes = base ++ stream ∧ s.tp.segs = []

/-- When a delivery does right. The segment is one of the stream, it is shorter than half of all words of
16 bits, and it lies between `rcv_nxt` and the `2 ^ 31` bytes behind it. If it starts at `rcv_nxt`, then
no queued segment has the byte behind it, and the word at address 0 is not taken for one. -/
structure Delivery.Fits (null : BitVec 32) (s : ReassLog) (d : Delivery) : Prop where
  carries : Carries isn stream (d.first, d.last) (d.ti, d.m)
  short : d.last < d.first + 2 ^ 15
  left : s.taken ≤ d.first
  right : d.last ≤ s.taken + 2 ^ 31
  alone : d.ti.tiSeq = s.tp.rcvNxt → null ≠ segEnd d.ti ∧
    ∀ q ∈ s.tp.segs, seqLEQ q.1.tiSeq (segEnd d.ti) → ¬ seqLT (segEnd d.ti) (segEnd q.1)

instance (null : BitVec 32) (s : ReassLog) (d : Delivery) : Decidable (d.Fits isn stream null s) :=
  decidable_of_iff (Carries isn stream (d.first, d.last) (d.ti, d.m) ∧ d.last < d.first + 2 ^ 15 ∧
      s.taken ≤ d.first ∧ d.last ≤ s.taken + 2 ^ 31 ∧ (d.ti.tiSeq = s.tp.rcvNxt →
        null ≠ segEnd d.ti ∧ ∀ q ∈ s.tp.segs,
          seqLEQ q.1.tiSeq (segEnd d.ti) → ¬ seqLT (segEnd d.ti) (segEnd q.1)))
    ⟨fun ⟨h₁, h₂, h₃, h₄, h₅⟩ => ⟨h₁, h₂, h₃, h₄, h₅⟩, fun ⟨h₁, h₂, h₃, h₄, h₅⟩ => ⟨h₁, h₂, h₃, h₄, h₅⟩⟩

end

/-! ## Segments as intervals -/

section

variable {isn : BitVec 32} {stream : List Byte} {p : ℕ × ℕ} {q ti : Tcpiphdr × List Mbuf} {n a b lo : ℕ}
  {ivls : List (ℕ × ℕ)} {segs : List (Tcpiphdr × List Mbuf)}

theorem Carries.toInt_len (h : Carries isn stream p q) (hshort : p.2 < p.1 + 2 ^ 15) :
    q.1.tiLen.toInt = p.2 - p.1 := by
  have hlt := h.lt
  rw [h.len, BitVec.toInt_ofNat', Int.bmod_eq_of_le (by omega) (by omega)]
  omega

theorem Carries.segEnd_eq (h : Carries isn stream p q) (hshort : p.2 < p.1 + 2 ^ 15) :
    segEnd q.1 = isn + BitVec.ofNat 32 p.2 := by
  have hlt := h.lt
  have hlen : q.1.tiLen.signExtend 32 = BitVec.ofNat 32 (p.2 - p.1) := by
    rw [← BitVec.ofInt_toInt (x := q.1.tiLen.signExtend 32),
      BitVec.toInt_signExtend_of_le (by decide), h.toInt_len hshort, ← BitVec.ofInt_natCast]
    congr 1
    omega
  rw [segEnd, h.seq, hlen, BitVec.add_assoc, ← BitVec.ofNat_add]
  congr 2
  omega

/-- What is left when a segment loses its front. -/
theorem Carries.frontTrim (h : Carries isn stream p q) (ha : p.1 ≤ a) (hlt : a < p.2) :
    Carries isn stream (a, p.2) (frontTrim (a - p.1) q) where
  lt := hlt
  le := h.le
  seq := by
    have he : (a : ℤ) - p.1 = (a - p.1 : ℕ) := by omega
    dsimp only [Net.frontTrim]
    rw [h.seq, he, BitVec.ofInt_natCast, BitVec.add_assoc, ← BitVec.ofNat_add]
    congr 2
    omega
  len := by
    have he : (a : ℤ) - p.1 = (a - p.1 : ℕ) := by omega
    dsimp only [Net.frontTrim]
    rw [h.len, he, BitVec.ofInt_natCast, sub_eq_iff_eq_add, ← BitVec.ofNat_add]
    congr 1
    omega
  bytes := by
    have he : ((a : ℤ) - p.1).toNat = a - p.1 := by omega
    rw [Net.frontTrim, chainBytes_mAdj, h.bytes, adjust, if_pos (by omega), he, drop_slice,
      Nat.add_sub_cancel' ha]

variable (isn stream) in
/-- A segment that lies in the `2 ^ 31` bytes from place `n` on. -/
structure Queued (n : ℕ) (p : ℕ × ℕ) (q : Tcpiphdr × List Mbuf) : Prop where
  carries : Carries isn stream p q
  short : p.2 < p.1 + 2 ^ 15
  left : n ≤ p.1
  right : p.2 ≤ n + 2 ^ 31

/-- Cutting the queue is cutting the intervals. -/
theorem reassCut_spec (h : List.Forall₂ (Queued isn stream n) ivls segs) (hgt : ∀ p ∈ ivls, n < p.1)
    (hn : n ≤ b) (hb : b ≤ n + 2 ^ 31) :
    List.Forall₂ (Queued isn stream n) (cutFront b ivls)
      (reassCut (isn + BitVec.ofNat 32 b) segs) := by
  induction h with
  | nil => exact .nil
  | @cons p q ivls segs hq hrest ih =>
      have hp := hgt p List.mem_cons_self
      have hlt := hq.carries.lt
      have hright := hq.right
      have hi : (isn + BitVec.ofNat 32 b - q.1.tiSeq).toInt = b - p.1 := by
        rw [hq.carries.seq]
        exact toInt_places isn (by omega) (by omega)
      rw [cutFront, reassCut, hi, hq.carries.toInt_len hq.short]
      rcases le_or_gt b p.1 with hle | hgt'
      · rw [if_pos hle, if_pos (show (b : ℤ) - p.1 ≤ 0 by omega)]
        exact .cons hq hrest
      rw [if_neg (not_le.mpr hgt'), if_neg (show ¬ (b : ℤ) - p.1 ≤ 0 by omega)]
      rcases lt_or_ge b p.2 with hbp | hpb
      · rw [if_pos hbp, if_pos (show (b : ℤ) - p.1 < p.2 - p.1 by omega)]
        refine .cons ⟨hq.carries.frontTrim (by omega) hbp, ?_, hn, hright⟩ hrest
        have hshort := hq.short
        dsimp only
        omega
      · rw [if_neg (not_lt.mpr hpb), if_neg (show ¬ (b : ℤ) - p.1 < p.2 - p.1 by omega)]
        exact ih fun p' hp' => hgt p' (List.mem_cons_of_mem p hp')

/-- Putting a segment in front of a part of the queue, behind one that ends at place `lo`. -/
theorem reassPlace_spec {prev : Option Tcpiphdr} (hti : Queued isn stream n (a, b) ti)
    (h : List.Forall₂ (Queued isn stream n) ivls segs) (hgt : ∀ p ∈ ivls, n < p.1)
    (hnone : prev = none → lo ≤ a)
    (hsome : ∀ p ∈ prev, segEnd p = isn + BitVec.ofNat 32 lo ∧ n ≤ lo ∧ lo ≤ n + 2 ^ 31 ∧ n < a) :
    List.Forall₂ (Queued isn stream n) (placeIvl lo a b ivls) ((reassPlace ti prev segs).getD segs) := by
  have hab : a < b := hti.carries.lt
  have hna : n ≤ a := hti.left
  have hbn : b ≤ n + 2 ^ 31 := hti.right
  have hlen : ti.1.tiLen.toInt = b - a := hti.carries.toInt_len hti.short
  -- how much of the segment the one before it has
  have hi : ∃ i : ℤ, (prev.elim 0 fun p => (segEnd p - ti.1.tiSeq).toInt) = i ∧
      ((lo ≤ a ∧ i ≤ 0) ∨ (a < lo ∧ i = lo - a)) := by
    cases prev with
    | none => exact ⟨0, rfl, .inl ⟨hnone rfl, le_rfl⟩⟩
    | some p =>
        have ⟨hp, hnlo, hlo, hlt⟩ := hsome p rfl
        refine ⟨lo - a, ?_, by omega⟩
        have hseq : ti.1.tiSeq = isn + BitVec.ofNat 32 a := hti.carries.seq
        rw [Option.elim_some, hp, hseq]
        exact toInt_places isn (by omega) (by omega)
  have ⟨i, hi, hcase⟩ := hi
  rw [reassPlace, hi, hlen, placeIvl]
  rcases hcase with ⟨hlo, hneg⟩ | ⟨hlo, rfl⟩
  · -- the segment stays as it is
    rw [max_eq_right hlo, if_neg (by omega), if_neg (by omega), Option.getD_some,
      hti.carries.segEnd_eq hti.short]
    exact .cons hti (reassCut_spec h hgt (by omega) hbn)
  have hpos : (lo : ℤ) - a > 0 := by omega
  rw [max_eq_left hlo.le, if_pos hpos]
  split
  · rename_i hdup
    rw [if_pos (by omega)]
    exact h
  · -- the segment loses its front
    rename_i hndup
    have htrim : Carries isn stream (lo, b) (frontTrim (lo - a) ti) :=
      hti.carries.frontTrim hlo.le (by omega)
    have hshort : b < lo + 2 ^ 15 := by
      have : b < a + 2 ^ 15 := hti.short
      omega
    rw [if_neg (by omega), Option.getD_some, htrim.segEnd_eq hshort]
    exact .cons ⟨htrim, hshort, by dsimp only; omega, hbn⟩ (reassCut_spec h hgt (by omega) hbn)

theorem reassInsert_from {prev : Option Tcpiphdr} (hti : Queued isn stream n (a, b) ti)
    (h : List.Forall₂ (Queued isn stream n) ivls segs) (hgt : ∀ p ∈ ivls, n < p.1)
    (hnone : prev = none → lo ≤ a)
    (hsome : ∀ p ∈ prev, segEnd p = isn + BitVec.ofNat 32 lo ∧ n ≤ lo ∧ lo ≤ n + 2 ^ 31 ∧ n < a) :
    List.Forall₂ (Queued isn stream n) (addIvl a b lo ivls)
      ((reassInsert ti prev segs).getD segs) := by
  induction h generalizing lo prev with
  | nil => exact reassPlace_spec hti .nil hgt hnone hsome
  | @cons p q ivls segs hq hrest ih =>
      have hp := hgt p List.mem_cons_self
      have hplt := hq.carries.lt
      have hpr := hq.right
      have hab : a < b := hti.carries.lt
      have hna : n ≤ a := hti.left
      have hbn : b ≤ n + 2 ^ 31 := hti.right
      have hseq : ti.1.tiSeq = isn + BitVec.ofNat 32 a := hti.carries.seq
      have hcmp : seqGT q.1.tiSeq ti.1.tiSeq ↔ a < p.1 := by
        rw [seqGT, hq.carries.seq, hseq, toInt_places isn (by omega) (by omega)]
        omega
      rw [addIvl, reassInsert]
      split
      · rename_i hlt
        rw [if_pos (hcmp.mpr hlt)]
        exact reassPlace_spec hti (.cons hq hrest) hgt hnone hsome
      · rename_i hnlt
        rw [if_neg (mt hcmp.mp hnlt)]
        have hnext : ∀ p' ∈ some q.1, segEnd p' = isn + BitVec.ofNat 32 p.2 ∧ n ≤ p.2 ∧
            p.2 ≤ n + 2 ^ 31 ∧ n < a := by
          rintro p' ⟨⟩
          exact ⟨hq.carries.segEnd_eq hq.short, by omega, hpr, by omega⟩
        have hins := ih (fun p' hp' => hgt p' (List.mem_cons_of_mem p hp')) (by simp) hnext
        cases hr : reassInsert ti (some q.1) segs with
        | none =>
            rw [hr] at hins
            exact .cons hq hins
        | some segs' =>
            rw [hr] at hins
            exact .cons hq hins

/-- Putting a segment into the queue is putting its interval into the list. -/
theorem reassInsert_spec (hti : Queued isn stream n (a, b) ti)
    (h : List.Forall₂ (Queued isn stream n) ivls segs) (hgt : ∀ p ∈ ivls, n < p.1) (lo : ℕ)
    (hlo : lo ≤ a) :
    List.Forall₂ (Queued isn stream n) (addIvl a b lo ivls)
      ((reassInsert ti none segs).getD segs) :=
  reassInsert_from hti h hgt (fun _ => hlo) (by simp)

/-- A segment in front of all of the queue loses nothing. -/
theorem reassInsert_first (hti : Queued isn stream n (n, b) ti)
    (h : List.Forall₂ (Queued isn stream n) ivls segs) (hgt : ∀ p ∈ ivls, n < p.1) :
    reassInsert ti none segs = some (ti :: reassCut (segEnd ti.1) segs) := by
  have hplace : reassPlace ti none segs = some (ti :: reassCut (segEnd ti.1) segs) := rfl
  cases h with
  | nil => rw [reassInsert, hplace]
  | @cons p q ivls segs hq hrest =>
      have hp := hgt p List.mem_cons_self
      have hright := hq.right
      have hplt := hq.carries.lt
      have hseq : ti.1.tiSeq = isn + BitVec.ofNat 32 n := hti.carries.seq
      have hcmp : seqGT q.1.tiSeq ti.1.tiSeq := by
        rw [seqGT, hq.carries.seq, hseq, toInt_places isn (by omega) (by omega)]
        omega
      rw [reassInsert, if_pos hcmp, hplace]

/-- No interval has place `b` if no segment has it. -/
theorem Queued.alone (h : List.Forall₂ (Queued isn stream n) ivls segs) (hgt : ∀ p ∈ ivls, n < p.1)
    (hn : n ≤ b) (hb : b ≤ n + 2 ^ 31)
    (halone : ∀ q ∈ segs, seqLEQ q.1.tiSeq (isn + BitVec.ofNat 32 b) →
      ¬ seqLT (isn + BitVec.ofNat 32 b) (segEnd q.1)) : ∀ p ∈ ivls, p.1 ≤ b → p.2 ≤ b := by
  induction h with
  | nil => simp
  | @cons p q ivls segs hq hrest ih =>
      intro p' hp' hle
      rcases List.mem_cons.mp hp' with rfl | hp'
      · have hp := hgt p' List.mem_cons_self
        have hplt := hq.carries.lt
        have hright := hq.right
        have hno := halone q List.mem_cons_self
        rw [seqLEQ, seqLT, hq.carries.seq, hq.carries.segEnd_eq hq.short,
          toInt_places isn (by omega) (by omega), toInt_places isn (by omega) (by omega)] at hno
        omega
      · exact ih (fun p hp => hgt p (List.mem_cons_of_mem _ hp))
          (fun q hq => halone q (List.mem_cons_of_mem _ hq)) p' hp' hle

/-- When `rcv_nxt` goes on, the segments that start behind it stay in reach. -/
theorem Queued.advance (h : List.Forall₂ (Queued isn stream n) ivls segs) (hnb : n ≤ b)
    (hgt : ∀ p ∈ ivls, b ≤ p.1) : List.Forall₂ (Queued isn stream b) ivls segs := by
  induction h with
  | nil => exact .nil
  | @cons p q ivls segs hq hrest ih =>
      have hright := hq.right
      refine .cons ⟨hq.carries, hq.short, hgt p List.mem_cons_self, by omega⟩ ?_
      exact ih fun p' hp' => hgt p' (List.mem_cons_of_mem p hp')

end

/-! ## Deliveries -/

section

variable {null isn : BitVec 32} {stream base : List Byte} {s s' : ReassLog} {d : Delivery}

/-- Nothing is presented when the first segment does not start at `rcv_nxt`. -/
theorem reassPresent_stays (null : BitVec 32) (tp : Tcpcb) (so : Socket)
    (h : ∀ q ∈ tp.segs.head?, q.1.tiSeq ≠ tp.rcvNxt) :
    reassPresent null tp so = some (false, tp, so) := by
  rw [reassPresent]
  split
  · rfl
  · rename_i ti m rest hsegs
    rw [hsegs] at h
    rw [if_pos (.inr (.inl (h _ rfl)))]

/-- The first segment is presented when it starts at `rcv_nxt`. -/
theorem reassPresent_first (tp : Tcpcb) {so : Socket} {ti : Tcpiphdr} {m : List Mbuf}
    {rest : List (Tcpiphdr × List Mbuf)} (hest : tp.tState = .established)
    (hrcv : so.ssCantRcvMore = false) (hsegs : tp.segs = (ti, m) :: rest)
    (hseq : ti.tiSeq = tp.rcvNxt) (hnull : null ≠ segEnd ti) :
    reassPresent null tp so = some (ti.tiFlags.thFin, { tp with rcvNxt := segEnd ti, segs := rest },
      { so with soRcv := sbappend so.soRcv m }) := by
  have hcond : ¬ (¬ tp.tState.haveRcvdSyn ∨ ti.tiSeq ≠ tp.rcvNxt ∨
      (tp.tState = .synReceived ∧ ti.tiLen ≠ 0)) := by
    simp [hest, hseq, TcpState.haveRcvdSyn, TcpState.num]
  rw [reassPresent, hsegs]
  dsimp only
  rw [if_neg hcond, if_neg (by rwa [← hseq]), if_neg (by simp [hrcv]), ← hseq]
  rfl

/-- What every delivery keeps. -/
structure ReassInv (isn : BitVec 32) (stream base : List Byte) (s : ReassLog) : Prop where
  established : s.tp.tState = .established
  receives : s.so.ssCantRcvMore = false
  sb : SbInv s.so.soRcv
  rcvNxt : s.tp.rcvNxt = isn + BitVec.ofNat 32 s.taken
  bytes : s.so.soRcv.bytes = base ++ stream.take s.taken
  queue : ∃ ivls, Spaced (s.taken + 1) ivls ∧
    List.Forall₂ (Queued isn stream s.taken) ivls s.tp.segs ∧
    ∀ x, Covers s.arrived x → x < s.taken ∨ Covers ivls x

/-- A segment that starts behind `rcv_nxt` is queued. -/
theorem ReassInv.enqueue (h : ReassInv isn stream base s) (hfit : d.Fits isn stream null s)
    (hlt : s.taken < d.first) (hstep : deliver null s d = some s') : ReassInv isn stream base s' := by
  have ⟨ivls, hsp, hq, hcov⟩ := h.queue
  have hti : Queued isn stream s.taken (d.first, d.last) (d.ti, d.m) :=
    ⟨hfit.carries, hfit.short, hfit.left, hfit.right⟩
  have hgt : ∀ p ∈ ivls, s.taken < p.1 := fun p hp => (hsp.of_mem hp).1
  have hsp' : Spaced (s.taken + 1) (addIvl d.first d.last (s.taken + 1) ivls) := hsp.addIvl
  have hq' := reassInsert_spec hti hq hgt (s.taken + 1) hlt
  -- the queue does not start at `rcv_nxt`
  have hhead : ∀ q ∈ ((reassInsert (d.ti, d.m) none s.tp.segs).getD s.tp.segs).head?,
      q.1.tiSeq ≠ s.tp.rcvNxt := by
    intro q hqm
    generalize (reassInsert (d.ti, d.m) none s.tp.segs).getD s.tp.segs = segs at hq' hqm
    generalize addIvl d.first d.last (s.taken + 1) ivls = ivls' at hq' hsp'
    cases hq' with
    | nil => simp at hqm
    | @cons p q' ivls segs hp hrest =>
        obtain rfl : q' = q := by simpa using hqm
        have hright := hp.right
        have hplt := hp.carries.lt
        have hle := hsp'.1
        have hd := toInt_places isn (show p.1 < s.taken + 2 ^ 31 by omega) (by omega)
        intro he
        rw [hp.carries.seq, h.rcvNxt] at he
        rw [he, BitVec.sub_self, BitVec.toInt_zero] at hd
        omega
  have hstep' : s' = { s with
      tp := { s.tp with segs := (reassInsert (d.ti, d.m) none s.tp.segs).getD s.tp.segs }
      arrived := (d.first, d.last) :: s.arrived } := by
    rw [deliver, tcpReass] at hstep
    cases hr : reassInsert (d.ti, d.m) none s.tp.segs with
    | none =>
        simp only [hr, Option.map_some, Option.some.injEq, sub_self] at hstep
        exact hstep.symm
    | some segs =>
        rw [hr, Option.getD_some] at hhead
        have hstays := reassPresent_stays null { s.tp with segs := segs } s.so hhead
        simp only [hr, hstays, Option.map_some, Option.some.injEq, sub_self] at hstep
        exact hstep.symm
  subst hstep'
  refine ⟨h.established, h.receives, h.sb, h.rcvNxt, h.bytes, _, hsp', hq', ?_⟩
  intro x hx
  rw [covers_addIvl hsp, max_eq_right hlt]
  rcases covers_cons.mp hx with hx | hx
  · exact .inr (.inr hx)
  · rcases hcov x hx with hx | hx
    · exact .inl hx
    · exact .inr (.inl hx)

/-- A segment that starts at `rcv_nxt` goes to the buffer. -/
theorem ReassInv.present (h : ReassInv isn stream base s) (hfit : d.Fits isn stream null s)
    (heq : d.first = s.taken) (hstep : deliver null s d = some s') : ReassInv isn stream base s' := by
  have ⟨ivls, hsp, hq, hcov⟩ := h.queue
  have hlt : s.taken < d.last := heq ▸ hfit.carries.lt
  have hlast := hfit.right
  have hti : Queued isn stream s.taken (s.taken, d.last) (d.ti, d.m) :=
    ⟨heq ▸ hfit.carries, heq ▸ hfit.short, le_rfl, hfit.right⟩
  have hgt : ∀ p ∈ ivls, s.taken < p.1 := fun p hp => (hsp.of_mem hp).1
  have hseq : d.ti.tiSeq = s.tp.rcvNxt := hti.carries.seq.trans h.rcvNxt.symm
  have hend : segEnd d.ti = isn + BitVec.ofNat 32 d.last := hti.carries.segEnd_eq hti.short
  have ⟨hnull, halone⟩ := hfit.alone hseq
  rw [hend] at halone
  -- the queue that is left starts behind the segment
  have hbehind : ∀ p ∈ cutFront d.last ivls, d.last < p.1 :=
    fun p => lt_of_mem_cutFront hsp (Queued.alone hq hgt hlt.le hlast halone)
  have hq' : List.Forall₂ (Queued isn stream d.last) (cutFront d.last ivls)
      (reassCut (segEnd d.ti) s.tp.segs) := by
    rw [hend]
    exact Queued.advance (reassCut_spec hq hgt hlt.le hlast) hlt.le fun p hp => (hbehind p hp).le
  have hsp' : Spaced (d.last + 1) (cutFront d.last ivls) := hsp.cutFront.of_forall hbehind
  have hstep' : s' =
      { tp := { s.tp with rcvNxt := segEnd d.ti, segs := reassCut (segEnd d.ti) s.tp.segs }
        so := { s.so with soRcv := sbappend s.so.soRcv d.m }
        taken := d.last
        arrived := (d.first, d.last) :: s.arrived } := by
    have htaken : s.taken + (segEnd d.ti - s.tp.rcvNxt).toNat = d.last := by
      rw [hend, h.rcvNxt, add_sub_add_left_eq_sub, BitVec.toNat_sub, BitVec.toNat_ofNat,
        BitVec.toNat_ofNat]
      omega
    have hpresent := reassPresent_first
      { s.tp with segs := (d.ti, d.m) :: reassCut (segEnd d.ti) s.tp.segs }
      h.established h.receives rfl hseq hnull
    rw [deliver, tcpReass, reassInsert_first hti hq hgt] at hstep
    simp only [hpresent, Option.map_some, Option.some.injEq, htaken] at hstep
    exact hstep.symm
  subst hstep'
  have ⟨hsb, hbytes⟩ := sbappend_spec h.sb d.m
  refine ⟨h.established, h.receives, hsb, hend, ?_, _, hsp', hq', ?_⟩
  · rw [hbytes, h.bytes, hti.carries.bytes, List.append_assoc, take_append_slice hlt.le]
  · intro x hx
    rcases Nat.lt_or_ge x d.last with hxl | hxl
    · exact .inl hxl
    refine .inr ((covers_cutFront hsp).mpr ⟨?_, hxl⟩)
    rcases covers_cons.mp hx with hx | hx
    · exact absurd hx.2 (not_lt.mpr hxl)
    · rcases hcov x hx with hx | hx
      · omega
      · exact hx

theorem ReassInv.deliver (h : ReassInv isn stream base s) (hfit : d.Fits isn stream null s)
    (hstep : deliver null s d = some s') : ReassInv isn stream base s' := by
  rcases Nat.lt_or_eq_of_le hfit.left with hlt | heq
  · exact h.enqueue hfit hlt hstep
  · exact h.present hfit heq.symm hstep

theorem ReassInv.inOrder (h : ReassInv isn stream base s) : InOrder isn stream base s := by
  have ⟨ivls, hsp, hq, hcov⟩ := h.queue
  have hcarries : List.Forall₂ (Carries isn stream) ivls s.tp.segs := hq.imp fun _ _ hp => hp.carries
  refine ⟨h.rcvNxt, h.bytes, ⟨ivls, hsp, hcarries⟩, ?_⟩
  intro hall
  -- the first byte that `rcv_nxt` has not gone over cannot be queued
  have htaken : stream.length ≤ s.taken := by
    by_contra hlt
    rcases hcov _ (hall s.taken (not_le.mp hlt)) with hx | hx
    · omega
    · have := hsp.le_of_covers hx
      omega
  refine ⟨?_, ?_⟩
  · rw [h.bytes, List.take_of_length_le htaken]
  · generalize s.tp.segs = segs at hcarries ⊢
    cases hcarries with
    | nil => rfl
    | @cons p q ivls segs hp hrest =>
        have hle := hp.le
        have hlt := hp.lt
        have hstart := hsp.1
        omega

/-- `tcp_reass` keeps the bytes in order in every run whose deliveries do right. -/
theorem inOrder_of_reach (tp : Tcpcb) (so : Socket) (hest : tp.tState = .established)
    (hempty : tp.segs = []) (hrcv : so.ssCantRcvMore = false) (hsb : SbInv so.soRcv)
    (h : Reach (deliver null) (fun s d => d.Fits tp.rcvNxt stream null s) (reassStart tp so) s) :
    InOrder tp.rcvNxt stream so.soRcv.bytes s := by
  refine ReassInv.inOrder (h.invariant ?_ fun s d s' hs hfit hstep => hs.deliver hfit hstep)
  refine ⟨hest, hrcv, hsb, ?_, ?_, [], trivial, ?_, ?_⟩
  · simp [reassStart]
  · simp [reassStart]
  · rw [reassStart, hempty]
    exact .nil
  · intro x hx
    exact absurd hx covers_nil

end

/-- A segment without flags. -/
def plainSegment (seq : BitVec 32) (data : List Byte) : Tcpiphdr × List Mbuf :=
  ({ tiLen := BitVec.ofNat 16 data.length
     tiSeq := seq
     tiAck := 0
     tiFlags := { thFin := false, thSyn := false, thRst := false, thPush := false, thAck := true,
                  thUrg := false }
     tiWin := 0
     tiUrp := 0 }, [dataMbuf data])

/-- A delivery of the bytes `data` from place `first` on, where place 0 has the number 0. -/
def plainDelivery (first : ℕ) (data : List Byte) : Delivery where
  first := first
  last := first + data.length
  ti := (plainSegment (BitVec.ofNat 32 first) data).1
  m := (plainSegment (BitVec.ofNat 32 first) data).2

/-- A connection that waits for the number 0. -/
def establishedTcpcb : Tcpcb := { tcpNewtcpcb with tState := .established }

/-- The last of four bytes arrives first, then the first two bytes, and then the last two. -/
theorem inOrder_of_reach_late :
    ∃ s, runCalls (deliver 99) (reassStart establishedTcpcb attachedSocket)
        [plainDelivery 3 [14], plainDelivery 0 [11, 12], plainDelivery 2 [13, 14]] = some s ∧
      s.taken = 4 ∧ InOrder 0 [11, 12, 13, 14] [] s := by
  set ds : List Delivery :=
    [plainDelivery 3 [14], plainDelivery 0 [11, 12], plainDelivery 2 [13, 14]] with hds
  have hrun : (runCalls (deliver 99) (reassStart establishedTcpcb attachedSocket) ds).map
      ReassLog.taken = some 4 := by
    decide +kernel
  have ⟨s, hs, htaken⟩ := Option.map_eq_some_iff.mp hrun
  have hsb : SbInv attachedSocket.soRcv := ⟨⟨rfl, rfl⟩, by simp [attachedSocket, reservedSb]⟩
  have hall : AllCalls (deliver 99) (fun s d => d.Fits 0 [11, 12, 13, 14] 99 s)
      (reassStart establishedTcpcb attachedSocket) ds := by
    decide +kernel
  exact ⟨s, hs, htaken, inOrder_of_reach establishedTcpcb attachedSocket rfl rfl rfl hsb
    (Reach.start.of_runCalls ds hall hs)⟩

/-- The second byte arrives first. Once the first one is there too, the second one is still queued. -/
theorem reass_can_stop_early :
    ∃ s, Reach (deliver 99)
        (fun s d => Carries 0 [11, 12] (d.first, d.last) (d.ti, d.m) ∧ d.last < d.first + 2 ^ 15 ∧
          s.taken ≤ d.first ∧ d.last ≤ s.taken + 2 ^ 31)
        (reassStart establishedTcpcb attachedSocket) s ∧
      (∀ x < 2, Covers s.arrived x) ∧ ¬ InOrder 0 [11, 12] [] s := by
  set ds : List Delivery := [plainDelivery 1 [12], plainDelivery 0 [11]] with hds
  have hrun : (runCalls (deliver 99) (reassStart establishedTcpcb attachedSocket) ds).map
      (fun s => (s.arrived, s.tp.segs.length)) = some ([(0, 1), (1, 2)], 1) := by
    decide +kernel
  have ⟨s, hs, hst⟩ := Option.map_eq_some_iff.mp hrun
  have ⟨harrived, hsegs⟩ := Prod.mk.inj hst
  have hall : ∀ x < 2, Covers s.arrived x := by
    intro x hx
    rw [harrived]
    simp only [covers_cons]
    omega
  refine ⟨s, Reach.start.of_runCalls ds (by decide +kernel) hs, hall, ?_⟩
  intro h
  have hnil := (h.all hall).2
  rw [hnil] at hsegs
  exact absurd hsegs (by decide)

end Shaunos.Net
