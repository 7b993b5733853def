import Shaunos.Net.TcpTrim

/-!
# When trimming is right

Reference: `Kernel/netinet/tcp_input.c`.

Places are counted from `rcv_nxt` on, so that the window is an interval of places and so is what goes
on of a segment.

* `trimLeft_of_lt`, `trimRight_cases` — what is cut off;
* `TrimIn.Meets` — when the places that go on are the right ones;
* `trims_iff_ok` — trimming is right if and only if `TrimIn.Ok` holds of what it looks at.
-/

namespace Shaunos.Net

/-! ## Places -/

/-- The bytes behind the window, as they are counted. -/
theorem todrop_eq {n r v : BitVec 32} {l : BitVec 16} {e : ℤ} (h : n - r = BitVec.ofInt 32 e) :
    n + l.signExtend 32 - (r - v) = BitVec.ofInt 32 (e + l.toInt + v.toNat) := by
  have hl : l.signExtend 32 = BitVec.ofInt 32 l.toInt := by
    rw [← BitVec.toInt_signExtend_of_le (show 16 ≤ 32 by decide), BitVec.ofInt_toInt]
  have hv : BitVec.ofInt 32 v.toNat = v := by simp
  rw [BitVec.ofInt_add, BitVec.ofInt_add, ← h, ← hl, hv]
  grind

section

variable {α : Type*} (so : Socket) {tp tp' : Tcpcb} {s : Segment α} {a b : ℕ}
  {t : Trimmed (List (BitVec 32 × α))}

/-- The place `i` is in the window. -/
def TrimIn.In (t : TrimIn) (i : ℕ) : Prop := i % 2 ^ 32 < t.wnd

/-- Nothing of the segment is in the window. -/
def TrimIn.Outside (t : TrimIn) : Prop :=
  (t.syn = true ∨ (t.len = 0 ∧ t.fin = false) → ¬ t.In t.dist) ∧
    (∀ i < t.len, ¬ t.In (t.first + i)) ∧ (t.fin = true → ¬ t.In (t.first + t.len))

theorem inWnd_add_iff (i : ℕ) :
    tp.InWnd (s.first + BitVec.ofNat 32 i) ↔ (s.trimIn so tp).In ((s.trimIn so tp).first + i) := by
  have hs : s.first = s.ti.tiSeq + BitVec.ofNat 32 (s.ti.tiFlags.thSyn).toNat := by
    unfold Segment.first
    cases s.ti.tiFlags.thSyn <;> rfl
  rw [Tcpcb.InWnd, InWindow, hs, BitVec.add_assoc, ← BitVec.ofNat_add, toNat_offset, TrimIn.In,
    TrimIn.first, Nat.add_assoc]
  rfl

theorem inWnd_tiSeq_iff : tp.InWnd s.ti.tiSeq ↔ (s.trimIn so tp).In (s.trimIn so tp).dist := by
  rw [TrimIn.In, Segment.trimIn, Nat.mod_eq_of_lt (BitVec.isLt _)]
  rfl

theorem inWnd_finSeq_iff :
    tp.InWnd s.finSeq ↔ (s.trimIn so tp).In ((s.trimIn so tp).first + (s.trimIn so tp).len) :=
  inWnd_add_iff so s.data.length

theorem outside_iff : (∀ n ∈ s.seqs, ¬ tp.InWnd n) ↔ (s.trimIn so tp).Outside := by
  have hbytes : (∀ n ∈ s.bytes.map Prod.fst, ¬ tp.InWnd n) ↔
      ∀ i < s.data.length, ¬ (s.trimIn so tp).In ((s.trimIn so tp).first + i) := by
    simp only [← inWnd_add_iff so]
    constructor
    · intro h i hi
      have hi' : i < (numbered s.first s.data).length := by simpa using hi
      refine h _ (List.mem_map.mpr ⟨_, List.getElem_mem hi', ?_⟩)
      rw [getElem_numbered]
    · intro h n hn
      obtain ⟨x, hx, rfl⟩ := List.mem_map.mp hn
      obtain ⟨i, hi, rfl⟩ := List.mem_iff_getElem.mp hx
      simp only [Segment.bytes, getElem_numbered]
      exact h i (by simpa [Segment.bytes] using hi)
  have hsyn : (∀ n ∈ (if s.ti.tiFlags.thSyn ∨ (s.data = [] ∧ s.ti.tiFlags.thFin = false) then
      [s.ti.tiSeq] else []), ¬ tp.InWnd n) ↔
      (s.ti.tiFlags.thSyn = true ∨ (s.data.length = 0 ∧ s.ti.tiFlags.thFin = false) →
        ¬ (s.trimIn so tp).In (s.trimIn so tp).dist) := by
    rw [List.length_eq_zero_iff, ← inWnd_tiSeq_iff so]
    split <;> simp_all
  have hfin : (∀ n ∈ (if s.ti.tiFlags.thFin then [s.finSeq] else []), ¬ tp.InWnd n) ↔
      (s.ti.tiFlags.thFin = true →
        ¬ (s.trimIn so tp).In ((s.trimIn so tp).first + (s.trimIn so tp).len)) := by
    rw [← inWnd_finSeq_iff so]
    split <;> simp_all
  simp only [Segment.seqs, List.forall_mem_append, hbytes, hsyn, hfin, TrimIn.Outside, and_assoc]
  rfl

/-- The segment is a window probe. -/
theorem probe_iff : (tp.rcvWnd = 0 ∧ s.ti.tiSeq = tp.rcvNxt) ↔
    ((s.trimIn so tp).wnd = 0 ∧ (s.trimIn so tp).dist = 0) := by
  have hw : tp.rcvWnd = 0 ↔ tp.rcvWnd.toNat = 0 := BitVec.toNat_eq (x := tp.rcvWnd) (y := 0)
  have hd : s.ti.tiSeq = tp.rcvNxt ↔ (s.ti.tiSeq - tp.rcvNxt).toNat = 0 := by
    have h₁ := s.ti.tiSeq.isLt
    have h₂ := tp.rcvNxt.isLt
    rw [BitVec.toNat_eq, BitVec.toNat_sub]
    omega
  rw [hw, hd]
  rfl

/-- `Trims`, seen from `rcv_nxt`, when the bytes from place `a` to place `b` go on. -/
theorem trims_iff (hkept : t.kept = slice a b s.bytes) :
    Trims tp s t ↔
      (∀ i < (s.trimIn so tp).len, ((s.trimIn so tp).In ((s.trimIn so tp).first + i) ↔ a ≤ i ∧ i < b)) ∧
        t.Described ∧
        (t.fin = true ↔ (s.trimIn so tp).fin = true ∧
          (s.trimIn so tp).In ((s.trimIn so tp).first + (s.trimIn so tp).len)) ∧
        ((s.trimIn so tp).Outside →
          ¬ ((s.trimIn so tp).wnd = 0 ∧ (s.trimIn so tp).dist = 0) → t.Acked) := by
  have hk : (t.kept = s.bytes.filter fun x => tp.InWnd x.1) ↔ ∀ i < (s.trimIn so tp).len,
      ((s.trimIn so tp).In ((s.trimIn so tp).first + i) ↔ a ≤ i ∧ i < b) := by
    have hl : s.data.length ≤ 2 ^ 32 := Nat.le_trans s.length_le (by decide)
    rw [hkept, Segment.bytes, slice_eq_filter_iff (fun n => decide (tp.InWnd n)) hl]
    simp only [decide_eq_true_eq, inWnd_add_iff so]
    rfl
  have hf : (t.fin = (s.ti.tiFlags.thFin && decide (tp.InWnd s.finSeq))) ↔
      (t.fin = true ↔ (s.trimIn so tp).fin = true ∧
        (s.trimIn so tp).In ((s.trimIn so tp).first + (s.trimIn so tp).len)) := by
    rw [Bool.eq_iff_iff, Bool.and_eq_true, decide_eq_true_eq, inWnd_finSeq_iff so]
    rfl
  rw [← hk, ← hf, ← outside_iff so, ← probe_iff so]
  exact ⟨fun h => ⟨h.kept, h.described, h.fin, h.acked⟩, fun h => ⟨h.1, h.2.1, h.2.2.1, h.2.2.2⟩⟩

end

section

namespace TrimIn

variable {t : TrimIn} {i : ℕ}

/-- What is known of a segment and the connection. -/
structure Bounded (t : TrimIn) : Prop where
  dist : t.dist < 2 ^ 32
  len : t.len ≤ 65495
  wnd : t.wnd < 2 ^ 31

/-- For a segment that starts before `rcv_nxt`. -/
theorem in_left (hb : t.Bounded) (hd : 2 ^ 31 < t.dist) (hi : i ≤ t.len) :
    t.In (t.first + i) ↔ t.old ≤ i ∧ i < t.old + t.wnd := by
  obtain ⟨h₁, h₂, h₃⟩ := hb
  have hs := Bool.toNat_le t.syn
  simp only [In, old, first]
  omega

/-- For a segment that does not start before `rcv_nxt`. -/
theorem in_right (hb : t.Bounded) (hd : ¬ 2 ^ 31 < t.dist) (hi : i ≤ t.len) :
    t.In (t.first + i) ↔ 0 ≤ i ∧ i < t.wnd - t.first := by
  obtain ⟨h₁, h₂, h₃⟩ := hb
  have hs := Bool.toNat_le t.syn
  simp only [In, first]
  omega

/-- The right outcome, when the bytes from place `a` to place `b` go on and the bytes in the window are
those from place `lo` to place `hi`. -/
structure Meets (t : TrimIn) (lo hi a b : ℕ) (described fin acked : Prop) : Prop where
  kept : (min hi t.len ≤ lo ∧ min b t.len ≤ a) ∨ (lo = a ∧ min hi t.len = min b t.len)
  described : described
  fin : fin ↔ t.fin = true ∧ lo ≤ t.len ∧ t.len < hi
  acked : (t.syn = true ∨ (t.len = 0 ∧ t.fin = false) → ¬ t.dist < t.wnd) → min hi t.len ≤ lo →
    (t.fin = true → ¬ (lo ≤ t.len ∧ t.len < hi)) → ¬ (t.wnd = 0 ∧ t.dist = 0) → acked

end TrimIn

variable {α : Type*} {so : Socket} {tp tp' : Tcpcb} {s : Segment α} {a b lo hi : ℕ}
  {t : Trimmed (List (BitVec 32 × α))}

/-- What is known of every segment, once the window is set. -/
theorem trimIn_bounded (so : Socket) (s : Segment α) (hw : tp.rcvWnd.toNat < 2 ^ 31) :
    (s.trimIn so tp).Bounded :=
  ⟨BitVec.isLt _, s.length_le, hw⟩

theorem trims_iff_meets (hb : (s.trimIn so tp).Bounded)
    (hin : ∀ i ≤ (s.trimIn so tp).len, ((s.trimIn so tp).In ((s.trimIn so tp).first + i) ↔ lo ≤ i ∧ i < hi))
    (hkept : t.kept = slice a b s.bytes) :
    Trims tp s t ↔ (s.trimIn so tp).Meets lo hi a b t.Described (t.fin = true) t.Acked := by
  rw [trims_iff so hkept]
  generalize s.trimIn so tp = u at *
  have hk : (∀ i < u.len, (u.In (u.first + i) ↔ a ≤ i ∧ i < b)) ↔
      (min hi u.len ≤ lo ∧ min b u.len ≤ a) ∨ (lo = a ∧ min hi u.len = min b u.len) := by
    rw [← interval_iff]
    exact forall₂_congr fun i hi => by rw [hin i (Nat.le_of_lt hi)]
  have hdist : u.In u.dist ↔ u.dist < u.wnd := by
    rw [TrimIn.In, Nat.mod_eq_of_lt hb.dist]
  have hout : (∀ i < u.len, ¬ u.In (u.first + i)) ↔ min hi u.len ≤ lo := by
    constructor
    · intro h
      by_contra hlt
      have := h lo (by omega)
      rw [hin lo (by omega)] at this
      omega
    · intro h i hi'
      rw [hin i (Nat.le_of_lt hi')]
      omega
  rw [hk, hin u.len (Nat.le_refl _), TrimIn.Outside, hout, hin u.len (Nat.le_refl _), hdist]
  exact ⟨fun h => ⟨h.1, h.2.1, h.2.2.1, fun h₁ h₂ h₃ => h.2.2.2 ⟨h₁, h₂, h₃⟩⟩,
    fun h => ⟨h.kept, h.described, h.fin, fun h' => h.acked h'.1 h'.2.1 h'.2.2⟩⟩

end

section

variable {α : Type*} {μ : Type*} {so : Socket} {tp : Tcpcb} {s : Segment α} {adj : μ → ℤ → μ} {m : μ}

/-- `ti_len` is the number of bytes, read as signed. -/
theorem tiLen_toInt (s : Segment α) : s.ti.tiLen.toInt =
    if s.data.length < 2 ^ 15 then (s.data.length : ℤ) else s.data.length - 2 ^ 16 := by
  have h := s.length_le
  rw [s.tiLen_eq, BitVec.toInt_eq_toNat_cond, BitVec.toNat_ofNat, Nat.mod_eq_of_lt (by omega)]
  split <;> split <;> omega

/-- A segment that does not start before `rcv_nxt` is not cut on the left. -/
theorem trimLeft_of_le (h : ¬ 2 ^ 31 < (s.ti.tiSeq - tp.rcvNxt).toNat) (tiflags : TcpFlags) :
    trimLeft adj tp s.ti tiflags m = (tp, s.ti, tiflags, m) := by
  have ht : ¬ (tp.rcvNxt - s.ti.tiSeq).toInt > 0 := by
    rw [toInt_swap, if_neg h]
    omega
  simp only [trimLeft, if_neg ht]

/-- What the left cut makes of a segment that starts before `rcv_nxt`: `k` bytes go, all of them when it
is a duplicate. -/
structure LeftCut (so : Socket) (tp : Tcpcb) (s : Segment α) (dup : Bool) (k : ℤ) (tp' : Tcpcb)
    (ti : Tcpiphdr) (tiflags : TcpFlags) : Prop where
  dup_iff : dup = true ↔ s.ti.tiLen.toInt < (s.trimIn so tp).old ∨
    ((s.trimIn so tp).old = s.ti.tiLen.toInt ∧ s.ti.tiFlags.thFin = false)
  count : k = if dup then s.ti.tiLen.toInt else ((s.trimIn so tp).old : ℤ)
  rcv : tp'.toRecvSeq = tp.toRecvSeq
  state : tp'.tState = tp.tState
  ackNow : tp'.tfAckNow = (dup || tp.tfAckNow)
  seq : ti.tiSeq = s.first + BitVec.ofInt 32 k
  len : ti.tiLen = BitVec.ofInt 16 (s.ti.tiLen.toInt - k)
  syn : tiflags.thSyn = false
  fin : tiflags.thFin = (s.ti.tiFlags.thFin && !dup)
  rst : tiflags.thRst = s.ti.tiFlags.thRst

theorem trimLeft_of_lt (so : Socket) (adj : μ → ℤ → μ) (m : μ)
    (h : 2 ^ 31 < (s.ti.tiSeq - tp.rcvNxt).toNat) :
    ∃ dup k tp' ti tiflags, LeftCut so tp s dup k tp' ti tiflags ∧
      trimLeft adj tp s.ti s.ti.tiFlags m = (tp', ti, tiflags, adj m k) := by
  have ht : (tp.rcvNxt - s.ti.tiSeq).toInt = 2 ^ 32 - ((s.ti.tiSeq - tp.rcvNxt).toNat : ℤ) := by
    rw [toInt_swap, if_pos h]
  have hlt := BitVec.isLt (s.ti.tiSeq - tp.rcvNxt)
  have hpos : (tp.rcvNxt - s.ti.tiSeq).toInt > 0 := by omega
  have hold : (if s.ti.tiFlags.thSyn = true then (tp.rcvNxt - s.ti.tiSeq).toInt - 1
      else (tp.rcvNxt - s.ti.tiSeq).toInt) = ((s.trimIn so tp).old : ℤ) := by
    rw [ht]
    simp only [TrimIn.old, TrimIn.first, Segment.trimIn]
    split <;> rename_i hsyn <;> simp only [hsyn, Bool.toNat_true, Bool.toNat_false] <;> omega
  have hfirst : (if s.ti.tiFlags.thSyn = true then s.ti.tiSeq + 1 else s.ti.tiSeq) = s.first := by
    unfold Segment.first
    split <;> simp
  refine ⟨decide (((s.trimIn so tp).old : ℤ) > s.ti.tiLen.toInt ∨
    ((s.trimIn so tp).old = s.ti.tiLen.toInt ∧ s.ti.tiFlags.thFin = false)), ?_, ?_, ?_, ?_, ?_, ?_⟩
  rotate_left 5
  · rw [trimLeft]
    simp only [if_pos hpos, hold, hfirst]
    rfl
  · exact ⟨decide_eq_true_iff, rfl, rfl, rfl, rfl, rfl, rfl, rfl, rfl, rfl⟩

/-- `m_adj` on the bytes from place `a` to place `b`. -/
theorem adjust_slice {β : Type*} {l : List β} {a b : ℕ} (k : ℤ) (hb : b ≤ l.length) :
    adjust (slice a b l) k = slice (a + k.toNat) (b - (-k).toNat) l := by
  unfold adjust
  split
  · rw [drop_slice, Int.toNat_of_nonpos (z := -k) (by omega), Nat.sub_zero]
  · rw [take_slice, length_slice, Nat.min_eq_left hb, Int.toNat_of_nonpos (z := k) (by omega),
      Nat.add_zero]
    rcases Nat.le_total (a + (-k).toNat) b with h | h
    · rw [show min (a + (b - a - (-k).toNat)) b = b - (-k).toNat by omega]
    · rw [slice_empty (by omega), slice_empty (by omega)]

theorem adjust_bytes (s : Segment α) (k : ℤ) :
    adjust s.bytes k = slice k.toNat (s.data.length - (-k).toNat) s.bytes := by
  have hl : s.bytes.length = s.data.length := length_numbered
  have h := adjust_slice (l := s.bytes) (a := 0) k (Nat.le_of_eq hl.symm)
  rwa [slice_all (Nat.le_of_eq hl), Nat.zero_add] at h

theorem bytes_eq_slice (s : Segment α) : s.bytes = slice 0 s.data.length s.bytes :=
  (slice_all (Nat.le_of_eq length_numbered)).symm

/-- The header of the bytes from place `a` to place `b`. -/
theorem described_pass {a b : ℕ} {ti : Tcpiphdr} {tiflags : TcpFlags} (hb : b ≤ s.data.length)
    (hseq : ti.tiLen.toInt = ((b - a : ℕ) : ℤ) → a < b →
      ti.tiSeq + (if tiflags.thSyn then 1 else 0) = s.first + BitVec.ofNat 32 a) :
    Trimmed.Described (.pass tp ti tiflags (slice a b s.bytes)) ↔
      ti.tiLen.toInt = ((b - a : ℕ) : ℤ) := by
  have hlen : (slice a b s.bytes).length = b - a := by
    rw [length_slice, Segment.bytes, length_numbered, Nat.min_eq_left hb]
  have hhead : ∀ x ∈ (slice a b s.bytes).head?, a < b ∧ x.1 = s.first + BitVec.ofNat 32 a := by
    intro x hx
    rw [slice, List.head?_drop, Option.mem_def, List.getElem?_eq_some_iff] at hx
    obtain ⟨ha, rfl⟩ := hx
    rw [List.length_take] at ha
    simp only [List.getElem_take, Segment.bytes, getElem_numbered, and_true]
    omega
  rw [Trimmed.Described, hlen]
  refine ⟨fun h => h.1, fun h => ⟨h, fun x hx => ?_⟩⟩
  rw [(hhead x hx).2, hseq h (hhead x hx).1]

end

section

variable {α : Type*} {μ : Type*} {so : Socket} {tp : Tcpcb} {ti : Tcpiphdr} {tiflags : TcpFlags}
  {s : Segment α} {adj : μ → ℤ → μ} {m : μ}

/-- How the right cut ends, for a segment that starts at place `e`. -/
theorem trimRight_cases {e : ℤ} (tiflags : TcpFlags) (adj : μ → ℤ → μ) (m : μ)
    (he : ti.tiSeq - tp.rcvNxt = BitVec.ofInt 32 e) :
    ∃ x q : ℤ, x = e + ti.tiLen.toInt + tp.rcvWnd.toNat + 2 ^ 32 * q ∧ -2 ^ 31 ≤ x ∧ x < 2 ^ 31 ∧
      ((x ≤ 0 ∧ trimRight adj tp ti tiflags m = .pass tp ti tiflags m) ∨
        (0 < x ∧ x < ti.tiLen.toInt ∧ trimRight adj tp ti tiflags m =
          cutRight adj tp ti tiflags m x) ∨
        (0 < x ∧ ti.tiLen.toInt ≤ x ∧
          (tiflags.thSyn = true ∧ tp.tState = .timeWait ∧ 0 < (BitVec.ofInt 32 e).toInt) ∧
          trimRight adj tp ti tiflags m =
            .reopen (tp.rcvNxt + BitVec.ofNat 32 tcpISSINCR) ti tiflags) ∨
        (0 < x ∧ ti.tiLen.toInt ≤ x ∧ tp.rcvWnd.toNat = 0 ∧ (2 ^ 32 : ℤ) ∣ e ∧
          trimRight adj tp ti tiflags m =
            cutRight adj { tp with tfAckNow := true } ti tiflags m x) ∨
        (0 < x ∧ ti.tiLen.toInt ≤ x ∧
          ¬ (tiflags.thSyn = true ∧ tp.tState = .timeWait ∧ 0 < (BitVec.ofInt 32 e).toInt) ∧
          ¬ (tp.rcvWnd.toNat = 0 ∧ (2 ^ 32 : ℤ) ∣ e) ∧
          trimRight adj tp ti tiflags m = dropafterack tp tiflags)) := by
  obtain ⟨q, hx, hlo, hhi⟩ := toInt_ofInt_spec (e + ti.tiLen.toInt + tp.rcvWnd.toNat)
  have hwnd : tp.rcvWnd = 0 ↔ tp.rcvWnd.toNat = 0 := BitVec.toNat_eq (x := tp.rcvWnd) (y := 0)
  have hseq : ti.tiSeq = tp.rcvNxt ↔ (2 ^ 32 : ℤ) ∣ e := by
    have h₁ := ti.tiSeq.isLt
    have h₂ := tp.rcvNxt.isLt
    have h₃ := congrArg BitVec.toNat he
    rw [BitVec.toNat_sub, BitVec.toNat_ofInt] at h₃
    rw [BitVec.toNat_eq]
    omega
  refine ⟨_, q, hx, hlo, hhi, ?_⟩
  rw [trimRight, todrop_eq he]
  simp only [seqGT, he, hwnd, hseq, gt_iff_lt, ge_iff_le]
  generalize (BitVec.ofInt 32 (e + ti.tiLen.toInt + tp.rcvWnd.toNat)).toInt = x
  by_cases h₁ : 0 < x
  · by_cases h₂ : ti.tiLen.toInt ≤ x
    · by_cases h₃ : tiflags.thSyn = true ∧ tp.tState = .timeWait ∧ 0 < (BitVec.ofInt 32 e).toInt
      · exact .inr (.inr (.inl ⟨h₁, h₂, h₃, by rw [if_pos h₁, if_pos h₂, if_pos h₃]⟩))
      · by_cases h₄ : tp.rcvWnd.toNat = 0 ∧ (2 ^ 32 : ℤ) ∣ e
        · exact .inr (.inr (.inr (.inl ⟨h₁, h₂, h₄.1, h₄.2, by
            rw [if_pos h₁, if_pos h₂, if_neg h₃, if_pos h₄]⟩)))
        · exact .inr (.inr (.inr (.inr ⟨h₁, h₂, h₃, h₄, by
            rw [if_pos h₁, if_pos h₂, if_neg h₃, if_neg h₄]⟩)))
    · exact .inr (.inl ⟨h₁, by omega, by rw [if_pos h₁, if_neg h₂]⟩)
  · exact .inl ⟨by omega, by rw [if_neg h₁]⟩

end

/-! ## Which outcomes are right -/

namespace TrimIn

variable {t : TrimIn} {lo hi a b : ℕ} {described fin acked : Prop}

theorem meets_iff : t.Meets lo hi a b described fin acked ↔
    ((min hi t.len ≤ lo ∧ min b t.len ≤ a) ∨ (lo = a ∧ min hi t.len = min b t.len)) ∧ described ∧
      (fin ↔ t.fin = true ∧ lo ≤ t.len ∧ t.len < hi) ∧
      ((t.syn = true ∨ (t.len = 0 ∧ t.fin = false) → ¬ t.dist < t.wnd) → min hi t.len ≤ lo →
        (t.fin = true → ¬ (lo ≤ t.len ∧ t.len < hi)) → ¬ (t.wnd = 0 ∧ t.dist = 0) → acked) :=
  ⟨fun h => ⟨h.kept, h.described, h.fin, h.acked⟩, fun h => ⟨h.1, h.2.1, h.2.2.1, h.2.2.2⟩⟩

/-- The number of bytes, as `ti_len` says it. -/
def tiLen (t : TrimIn) : ℤ := if t.len < 2 ^ 15 then t.len else t.len - 2 ^ 16

theorem tiLen_cases (t : TrimIn) : (t.len < 2 ^ 15 ∧ t.tiLen = t.len) ∨
    (2 ^ 15 ≤ t.len ∧ t.tiLen = t.len - 2 ^ 16) := by
  unfold tiLen
  split <;> omega

theorem first_cases (t : TrimIn) :
    (t.syn = true ∧ t.first = t.dist + 1) ∨ (t.syn = false ∧ t.first = t.dist) := by
  cases h : t.syn <;> simp [first, h]

section

variable {x q : ℤ} (hb : t.Bounded)

include hb

/-- A duplicate goes on without its bytes. -/
theorem left_dup_pass (hd : 2 ^ 31 < t.dist) (hlo : -2 ^ 31 ≤ x)
    (hdup : t.tiLen < t.old ∨ ((t.old : ℤ) = t.tiLen ∧ t.fin = false))
    (hx : x = t.first + t.tiLen + t.wnd + 2 ^ 32 * q) (h : x ≤ 0) :
    t.Meets t.old (t.old + t.wnd) t.tiLen.toNat (t.len - (-t.tiLen).toNat)
      ((0 : ℤ) = ((t.len - (-t.tiLen).toNat - t.tiLen.toNat : ℕ) : ℤ)) (false = true)
      (t.len - (-t.tiLen).toNat ≤ t.tiLen.toNat ∧ t.rst = false) ↔ t.LeftOk := by
  obtain ⟨h₁, h₂, h₃⟩ := hb
  have hfirst := first_cases t
  have hold : t.old = 2 ^ 32 - t.first := rfl
  rw [meets_iff, LeftOk]
  rcases tiLen_cases t with ⟨hlen, htl⟩ | ⟨hlen, htl⟩
  · have hk : t.tiLen.toNat = t.len ∧ (-t.tiLen).toNat = 0 := by omega
    have hdup' : t.Dup := by
      rcases hdup with hlt | ⟨heq, hfin⟩
      · exact .inl (by omega)
      · exact .inr ⟨by omega, hfin⟩
    rw [if_pos hlen, if_pos hdup', hk.1, hk.2]
    grind [Dup]
  · -- a negative number of bytes cuts off the end
    have hk : t.tiLen.toNat = 0 ∧ (-t.tiLen).toNat = 2 ^ 16 - t.len := by omega
    rw [if_neg (by omega), if_neg (by omega), hk.1, hk.2]
    grind [Dup]

/-- A duplicate is dropped. -/
theorem left_dup_drop (hd : 2 ^ 31 < t.dist) (hlo : -2 ^ 31 ≤ x) (hhi : x < 2 ^ 31)
    (hdup : t.tiLen < t.old ∨ ((t.old : ℤ) = t.tiLen ∧ t.fin = false))
    (hx : x = t.first + t.tiLen + t.wnd + 2 ^ 32 * q) (h : 0 < x) :
    t.Meets t.old (t.old + t.wnd) 0 0 True False (t.rst = false) ↔ t.LeftOk := by
  obtain ⟨h₁, h₂, h₃⟩ := hb
  have hlen := tiLen_cases t
  have hfirst := first_cases t
  have hold : t.old = 2 ^ 32 - t.first := rfl
  simp only [meets_iff, LeftOk, Dup]
  grind

/-- A part of the segment is left, and the connection is reset. -/
theorem left_reset (hd : 2 ^ 31 < t.dist)
    (hdup : ¬ (t.tiLen < t.old ∨ ((t.old : ℤ) = t.tiLen ∧ t.fin = false)))
    (hgone : t.gone = true) (hlen : t.len ≠ t.old) :
    t.Meets t.old (t.old + t.wnd) 0 0 True False False ↔ t.LeftOk := by
  obtain ⟨h₁, h₂, h₃⟩ := hb
  have hlen' := tiLen_cases t
  have hfirst := first_cases t
  have hold : t.old = 2 ^ 32 - t.first := rfl
  simp only [meets_iff, LeftOk, Dup]
  grind

/-- What is left of the segment goes on. -/
theorem left_pass (hd : 2 ^ 31 < t.dist) (hlo : -2 ^ 31 ≤ x) (hhi : x < 2 ^ 31)
    (hdup : ¬ (t.tiLen < t.old ∨ ((t.old : ℤ) = t.tiLen ∧ t.fin = false)))
    (hgone : t.gone = true → t.len = t.old)
    (hx : x = t.first + t.old + (t.tiLen - t.old) + t.wnd + 2 ^ 32 * q) (h : x ≤ 0) :
    t.Meets t.old (t.old + t.wnd) t.old t.len (t.tiLen - t.old = ((t.len - t.old : ℕ) : ℤ))
      (t.fin = true) (t.len ≤ t.old ∧ t.fin = false ∧ t.rst = false ∧ t.ackNow = true) ↔
      t.LeftOk := by
  obtain ⟨h₁, h₂, h₃⟩ := hb
  have hlen := tiLen_cases t
  have hfirst := first_cases t
  have hold : t.old = 2 ^ 32 - t.first := rfl
  have hle : t.len < 2 ^ 15 ∧ t.tiLen = t.len ∧ t.old ≤ t.len := by omega
  -- either a FIN alone is left, or the sum is beyond what the word holds
  have hsum : (t.len = t.old ∧ t.wnd = 0) ∨ 2 ^ 31 + t.old ≤ t.wnd + t.len := by omega
  have hnot : ¬ t.Dup := by
    rintro (hlt | ⟨heq, hfin⟩)
    · exact hdup (.inl (by omega))
    · exact hdup (.inr ⟨by omega, hfin⟩)
  rw [meets_iff, LeftOk, if_pos hle.1, if_neg hnot]
  rcases hsum with ⟨hz, hw⟩ | hsum
  · have hfin : t.fin = true := by
      by_contra hf
      exact hdup (.inr ⟨by omega, by simpa using hf⟩)
    grind
  · have h₄ : t.wnd ≠ 0 := by omega
    grind

/-- What is left of the segment is taken for a window probe. -/
theorem left_probe (hd : 2 ^ 31 < t.dist) (hhi : x < 2 ^ 31)
    (hdup : ¬ (t.tiLen < t.old ∨ ((t.old : ℤ) = t.tiLen ∧ t.fin = false)))
    (hgone : t.gone = true → t.len = t.old) (hw : t.wnd = 0)
    (hx : x = t.first + t.old + (t.tiLen - t.old) + t.wnd + 2 ^ 32 * q) (h : 0 < x) :
    t.Meets t.old (t.old + t.wnd) t.old (t.len - x.toNat)
      (t.tiLen - t.old - x = ((t.len - x.toNat - t.old : ℕ) : ℤ)) (false = true)
      (t.len - x.toNat ≤ t.old ∧ t.rst = false) ↔ t.LeftOk := by
  obtain ⟨h₁, h₂, h₃⟩ := hb
  have hlen := tiLen_cases t
  have hfirst := first_cases t
  have hold : t.old = 2 ^ 32 - t.first := rfl
  simp only [meets_iff, LeftOk, Dup]
  grind

/-- What is left of the segment is dropped. -/
theorem left_drop (hhi : x < 2 ^ 31)
    (hdup : ¬ (t.tiLen < t.old ∨ ((t.old : ℤ) = t.tiLen ∧ t.fin = false)))
    (hgone : t.gone = true → t.len = t.old) (hw : t.wnd ≠ 0)
    (hx : x = t.first + t.old + (t.tiLen - t.old) + t.wnd + 2 ^ 32 * q) (h : 0 < x) :
    t.Meets t.old (t.old + t.wnd) 0 0 True False (t.rst = false) ↔ t.LeftOk := by
  obtain ⟨h₁, h₂, h₃⟩ := hb
  have hlen := tiLen_cases t
  have hfirst := first_cases t
  have hold : t.old = 2 ^ 32 - t.first := rfl
  simp only [meets_iff, LeftOk, Dup]
  grind

/-- The connection is reset. -/
theorem right_reset
    (hgone : t.gone = true ∧ t.len ≠ 0) :
    t.Meets 0 (t.wnd - t.first) 0 0 True False False ↔ t.RightOk := by
  obtain ⟨h₁, h₂, h₃⟩ := hb
  have hlen := tiLen_cases t
  have hfirst := first_cases t
  simp only [meets_iff, RightOk]
  grind

/-- The segment goes on as it is. -/
theorem right_pass (hd : ¬ 2 ^ 31 < t.dist) (hlo : -2 ^ 31 ≤ x) (hhi : x < 2 ^ 31)
    (hgone : ¬ (t.gone = true ∧ t.len ≠ 0))
    (hx : x = t.dist + t.tiLen + t.wnd + 2 ^ 32 * q) (h : x ≤ 0) :
    t.Meets 0 (t.wnd - t.first) 0 t.len (t.tiLen = ((t.len - 0 : ℕ) : ℤ)) (t.fin = true)
      (t.len ≤ 0 ∧ t.fin = false ∧ t.rst = false ∧ t.ackNow = true) ↔ t.RightOk := by
  obtain ⟨h₁, h₂, h₃⟩ := hb
  have hfirst := first_cases t
  rw [meets_iff, RightOk, if_neg hgone]
  rcases tiLen_cases t with ⟨hlen, htl⟩ | ⟨hlen, htl⟩
  · -- either there is nothing, or the sum is beyond what the word holds
    have hsum : t.dist + t.len + t.wnd = 0 ∨
        (2 ^ 31 ≤ t.dist + t.len + t.wnd ∧ t.dist + t.len + t.wnd ≤ 2 ^ 32) := by omega
    rw [if_pos hlen]
    rcases hsum with hz | ⟨hlow, hhigh⟩
    · rw [if_pos hz]
      grind
    · rw [if_neg (by omega), if_neg (by omega)]
      grind
  · -- a negative number of bytes says nothing
    have hne : ¬ (t.tiLen = ((t.len - 0 : ℕ) : ℤ)) := by omega
    rw [if_neg (by omega)]
    grind

/-- A part at the end is cut off. -/
theorem right_cut (hd : ¬ 2 ^ 31 < t.dist) (hlo : -2 ^ 31 ≤ x) (hhi : x < 2 ^ 31)
    (hgone : ¬ (t.gone = true ∧ t.len ≠ 0))
    (hx : x = t.dist + t.tiLen + t.wnd + 2 ^ 32 * q) (h : 0 < x) (hlt : x < t.tiLen) :
    t.Meets 0 (t.wnd - t.first) 0 (t.len - x.toNat)
      (t.tiLen - x = ((t.len - x.toNat - 0 : ℕ) : ℤ)) (false = true)
      (t.len - x.toNat ≤ 0 ∧ t.rst = false ∧ t.ackNow = true) ↔ t.RightOk := by
  obtain ⟨h₁, h₂, h₃⟩ := hb
  have hlen := tiLen_cases t
  have hfirst := first_cases t
  simp only [meets_iff, RightOk]
  grind

/-- A SYN opens a new connection. -/
theorem right_reopen (hlo : -2 ^ 31 ≤ x) (hhi : x < 2 ^ 31)
    (hgone : ¬ (t.gone = true ∧ t.len ≠ 0))
    (hx : x = t.dist + t.tiLen + t.wnd + 2 ^ 32 * q) (h : 0 < x) (hle : t.tiLen ≤ x)
    (hsyn : t.syn = true) (htw : t.timeWait = true) (hpos : 0 < t.dist) (hlt : t.dist < 2 ^ 31) :
    t.Meets 0 (t.wnd - t.first) 0 0 True False False ↔ t.RightOk := by
  obtain ⟨h₁, h₂, h₃⟩ := hb
  have hlen := tiLen_cases t
  have hfirst := first_cases t
  simp only [meets_iff, RightOk]
  grind

/-- A window probe. -/
theorem right_probe (hlo : -2 ^ 31 ≤ x) (hhi : x < 2 ^ 31)
    (hgone : ¬ (t.gone = true ∧ t.len ≠ 0))
    (hx : x = t.dist + t.tiLen + t.wnd + 2 ^ 32 * q) (h : 0 < x) (hw : t.wnd = 0) (hz : t.dist = 0) :
    t.Meets 0 (t.wnd - t.first) 0 (t.len - x.toNat)
      (t.tiLen - x = ((t.len - x.toNat - 0 : ℕ) : ℤ)) (false = true)
      (t.len - x.toNat ≤ 0 ∧ t.rst = false) ↔ t.RightOk := by
  obtain ⟨h₁, h₂, h₃⟩ := hb
  have hlen := tiLen_cases t
  have hfirst := first_cases t
  simp only [meets_iff, RightOk]
  grind

/-- The segment is dropped. -/
theorem right_drop (hd : ¬ 2 ^ 31 < t.dist) (hlo : -2 ^ 31 ≤ x) (hhi : x < 2 ^ 31)
    (hgone : ¬ (t.gone = true ∧ t.len ≠ 0))
    (hx : x = t.dist + t.tiLen + t.wnd + 2 ^ 32 * q) (h : 0 < x) (hle : t.tiLen ≤ x)
    (hre : ¬ (t.syn = true ∧ t.timeWait = true ∧ 0 < t.dist ∧ t.dist < 2 ^ 31))
    (hprobe : ¬ (t.wnd = 0 ∧ t.dist = 0)) :
    t.Meets 0 (t.wnd - t.first) 0 0 True False (t.rst = false) ↔ t.RightOk := by
  obtain ⟨h₁, h₂, h₃⟩ := hb
  have hlen := tiLen_cases t
  have hfirst := first_cases t
  simp only [meets_iff, RightOk]
  grind

end

end TrimIn

section

variable {α : Type*} {so : Socket} {tp : Tcpcb} {s : Segment α}

theorem first_sub (so : Socket) (tp : Tcpcb) (s : Segment α) (k : ℤ) :
    s.first + BitVec.ofInt 32 k - tp.rcvNxt = BitVec.ofInt 32 ((s.trimIn so tp).first + k) := by
  have hs : s.first = s.ti.tiSeq + BitVec.ofNat 32 (s.ti.tiFlags.thSyn).toNat := by
    unfold Segment.first
    cases s.ti.tiFlags.thSyn <;> rfl
  have hd : BitVec.ofInt 32 ((s.trimIn so tp).dist : ℤ) = s.ti.tiSeq - tp.rcvNxt := by
    rw [BitVec.ofInt_natCast]
    simp only [Segment.trimIn, BitVec.ofNat_toNat, BitVec.setWidth_eq]
  have hsyn : BitVec.ofInt 32 (((s.trimIn so tp).syn.toNat : ℕ) : ℤ) =
      BitVec.ofNat 32 (s.ti.tiFlags.thSyn).toNat := by
    simp [Segment.trimIn]
  rw [TrimIn.first, Nat.cast_add, BitVec.ofInt_add, BitVec.ofInt_add, hd, hsyn, hs]
  grind

/-- The outcome when nothing goes on. -/
theorem trims_none {lo hi : ℕ} {t : Trimmed (List (BitVec 32 × α))} {acked : Prop}
    (hb : (s.trimIn so tp).Bounded)
    (hin : ∀ i ≤ (s.trimIn so tp).len,
      ((s.trimIn so tp).In ((s.trimIn so tp).first + i) ↔ lo ≤ i ∧ i < hi))
    (hkept : t.kept = []) (hdescribed : t.Described) (hfin : t.fin = false) (hacked : t.Acked ↔ acked) :
    Trims tp s t ↔ (s.trimIn so tp).Meets lo hi 0 0 True False acked := by
  have hempty : slice 0 0 s.bytes = [] := slice_empty (by omega)
  rw [trims_iff_meets hb hin (hkept.trans hempty.symm), hfin]
  simp only [hdescribed, Bool.false_eq_true, hacked]

/-- The outcome at `dropafterack`. -/
theorem trims_dropafterack {lo hi : ℕ} {tp' : Tcpcb} {tiflags : TcpFlags}
    (hb : (s.trimIn so tp).Bounded)
    (hin : ∀ i ≤ (s.trimIn so tp).len,
      ((s.trimIn so tp).In ((s.trimIn so tp).first + i) ↔ lo ≤ i ∧ i < hi))
    (hrst : tiflags.thRst = s.ti.tiFlags.thRst) :
    Trims tp s (dropafterack tp' tiflags) ↔
      (s.trimIn so tp).Meets lo hi 0 0 True False ((s.trimIn so tp).rst = false) := by
  rw [dropafterack, hrst]
  split
  · rename_i h
    refine trims_none hb hin rfl trivial rfl ?_
    simp [Trimmed.Acked, Segment.trimIn, h]
  · rename_i h
    refine trims_none hb hin rfl trivial rfl ?_
    simp [Trimmed.Acked, Segment.trimIn, h]

/-- The outcome when the bytes from place `a` to place `b` go on. -/
theorem trims_pass {lo hi a b : ℕ} {tp' : Tcpcb} {ti : Tcpiphdr} {tiflags : TcpFlags}
    (hb : (s.trimIn so tp).Bounded)
    (hin : ∀ i ≤ (s.trimIn so tp).len,
      ((s.trimIn so tp).In ((s.trimIn so tp).first + i) ↔ lo ≤ i ∧ i < hi))
    (hlen : b ≤ s.data.length)
    (hseq : ti.tiLen.toInt = ((b - a : ℕ) : ℤ) → a < b →
      ti.tiSeq + (if tiflags.thSyn then 1 else 0) = s.first + BitVec.ofNat 32 a) :
    Trims tp s (.pass tp' ti tiflags (slice a b s.bytes)) ↔
      (s.trimIn so tp).Meets lo hi a b (ti.tiLen.toInt = ((b - a : ℕ) : ℤ)) (tiflags.thFin = true)
        (b ≤ a ∧ tiflags.thFin = false ∧ tiflags.thRst = false ∧ tp'.tfAckNow = true) := by
  have hnil : slice a b s.bytes = [] ↔ b ≤ a := by
    rw [slice_eq_nil_iff, Segment.bytes, length_numbered, Nat.min_eq_left hlen]
  rw [trims_iff_meets hb hin rfl, described_pass hlen hseq, Trimmed.fin, Trimmed.Acked, hnil]

/-- A number of bytes that fits into `ti_len`. -/
theorem toInt_ofInt_len {z : ℤ} (h₀ : 0 ≤ z) (h₁ : z < 2 ^ 15) : (BitVec.ofInt 16 z).toInt = z := by
  rw [BitVec.toInt_ofInt, Int.bmod_eq_of_le (by omega) (by omega)]

/-- The outcome when the bytes from place `a` to place `b` are cut at the end. -/
theorem trims_cut {lo hi a b : ℕ} {x : ℤ} {tp' : Tcpcb} {ti : Tcpiphdr} {tiflags : TcpFlags}
    (hb : (s.trimIn so tp).Bounded)
    (hin : ∀ i ≤ (s.trimIn so tp).len,
      ((s.trimIn so tp).In ((s.trimIn so tp).first + i) ↔ lo ≤ i ∧ i < hi))
    (hlen : b ≤ s.data.length) (hx : 0 ≤ x) (h₀ : 0 ≤ ti.tiLen.toInt - x)
    (h₁ : ti.tiLen.toInt - x < 2 ^ 15)
    (hseq : ti.tiLen.toInt - x = ((b - x.toNat - a : ℕ) : ℤ) → a < b - x.toNat →
      ti.tiSeq + (if tiflags.thSyn then 1 else 0) = s.first + BitVec.ofNat 32 a) :
    Trims tp s (cutRight adjust tp' ti tiflags (slice a b s.bytes) x) ↔
      (s.trimIn so tp).Meets lo hi a (b - x.toNat)
        (ti.tiLen.toInt - x = ((b - x.toNat - a : ℕ) : ℤ)) (false = true)
        (b - x.toNat ≤ a ∧ tiflags.thRst = false ∧ tp'.tfAckNow = true) := by
  have hlen' : b ≤ s.bytes.length := by simpa [Segment.bytes] using hlen
  have hfits := toInt_ofInt_len h₀ h₁
  rw [cutRight, adjust_slice _ hlen', Int.neg_neg, Int.toNat_of_nonpos (z := -x) (by omega), Nat.add_zero,
    trims_pass hb hin (Nat.le_trans (Nat.sub_le _ _) hlen)]
  · simp [hfits]
  · rw [hfits]
    exact hseq

theorem tiLen_eq_trimIn (so : Socket) (tp : Tcpcb) (s : Segment α) :
    s.ti.tiLen.toInt = (s.trimIn so tp).tiLen := tiLen_toInt s

theorem gone_iff (so : Socket) (tp : Tcpcb) (s : Segment α) : (s.trimIn so tp).gone = true ↔
    so.ssNofdref = true ∧ TcpState.closeWait.num < tp.tState.num := by
  simp [Segment.trimIn]

/-- A segment that starts before `rcv_nxt`. -/
theorem trims_left_iff (hd : 2 ^ 31 < (s.ti.tiSeq - tp.rcvNxt).toNat)
    (hw : tp.rcvWnd.toNat < 2 ^ 31) :
    Trims tp s (trim adjust so tp s.ti s.ti.tiFlags s.bytes) ↔ (s.trimIn so tp).LeftOk := by
  obtain ⟨dup, k, tp', ti, tiflags, hcut, hleft⟩ := trimLeft_of_lt so adjust s.bytes hd
  have hb := trimIn_bounded so s hw
  have hin := fun i => TrimIn.in_left (i := i) hb hd
  have hlen := TrimIn.tiLen_cases (s.trimIn so tp)
  have hle := hb.len
  have htl := tiLen_eq_trimIn so tp s
  have hdup := hcut.dup_iff
  have hk := hcut.count
  rw [htl] at hdup hk
  have he : ti.tiSeq - tp'.rcvNxt = BitVec.ofInt 32 ((s.trimIn so tp).first + k) := by
    rw [hcut.seq, hcut.rcv, first_sub so tp s k]
  obtain ⟨x, q, hx, hlo, hhi, hcase⟩ := trimRight_cases tiflags adjust (adjust s.bytes k) he
  have hw' : (tp'.rcvWnd.toNat : ℤ) = (s.trimIn so tp).wnd := by
    rw [hcut.rcv]
    rfl
  rw [trim, hleft]
  simp only
  cases dup with
  | true =>
      replace hdup := hdup.mp rfl
      rw [if_pos rfl] at hk
      subst hk
      have hzero : ti.tiLen = 0 := by
        rw [hcut.len, htl, Int.sub_self]
        rfl
      have hz : (0 : BitVec 16).toInt = 0 := rfl
      rw [if_neg (by simp [hzero])]
      rw [hzero, hz, hw', Int.add_zero] at hx
      rw [hzero, hz] at hcase
      rcases hcase with ⟨hx0, h⟩ | ⟨hx0, hx1, h⟩ | ⟨hx0, -, ⟨hsyn, -⟩, h⟩ | ⟨hx0, -, hw0, hz0, h⟩ |
        ⟨hx0, -, -, -, h⟩
      · rw [h, adjust_bytes, trims_pass hb hin (by omega) (by rw [hzero, hz]; omega), hzero, hcut.fin,
          hcut.rst, hcut.ackNow, ← TrimIn.left_dup_pass hb hd hlo hdup hx hx0]
        simp
        rfl
      · omega
      · simp [hcut.syn] at hsyn
      · omega
      · rw [h, trims_dropafterack hb hin hcut.rst, TrimIn.left_dup_drop hb hd hlo hhi hdup hx hx0]
  | false =>
      replace hdup : ¬ _ := fun h => Bool.false_ne_true (hdup.mpr h)
      rw [if_neg Bool.false_ne_true] at hk
      subst hk
      have hge : ((s.trimIn so tp).old : ℤ) ≤ (s.trimIn so tp).tiLen := by
        by_contra hlt
        exact hdup (.inl (by omega))
      have hrange : 0 ≤ (s.trimIn so tp).tiLen - (s.trimIn so tp).old ∧
          (s.trimIn so tp).tiLen - (s.trimIn so tp).old < 2 ^ 15 := by omega
      have hlen' : ti.tiLen.toInt = (s.trimIn so tp).tiLen - (s.trimIn so tp).old := by
        rw [hcut.len, htl, toInt_ofInt_len hrange.1 hrange.2]
      have hN : (s.trimIn so tp).len = s.data.length := rfl
      have hzero : ti.tiLen ≠ 0 ↔ (s.trimIn so tp).len ≠ (s.trimIn so tp).old := by
        rw [Ne, ← BitVec.toInt_inj, hlen', show (0 : BitVec 16).toInt = 0 from rfl]
        omega
      have hsum : (s.trimIn so tp).first + (s.trimIn so tp).old = 2 ^ 32 := by
        have := Bool.toNat_le (s.trimIn so tp).syn
        have := hb.dist
        simp only [TrimIn.old, TrimIn.first]
        omega
      rw [hlen', hw'] at hx
      rw [hlen'] at hcase
      split
      · rename_i hreset
        rw [hcut.state, hzero, ← and_assoc, ← gone_iff so tp s] at hreset
        rw [← TrimIn.left_reset hb hd hdup hreset.1 hreset.2]
        exact trims_none hb hin rfl trivial rfl Iff.rfl
      · rename_i hreset
        rw [hcut.state, hzero, ← and_assoc, ← gone_iff so tp s] at hreset
        have hgone : (s.trimIn so tp).gone = true → (s.trimIn so tp).len = (s.trimIn so tp).old := by
          intro hg
          by_contra hne
          exact hreset ⟨hg, hne⟩
        have hkept : adjust s.bytes ((s.trimIn so tp).old : ℤ) =
            slice (s.trimIn so tp).old s.data.length s.bytes := by
          rw [adjust_bytes, Int.toNat_natCast, Int.toNat_of_nonpos (by omega), Nat.sub_zero]
        have hseq : ti.tiSeq + (if tiflags.thSyn then 1 else 0) =
            s.first + BitVec.ofNat 32 (s.trimIn so tp).old := by
          rw [hcut.seq, hcut.syn]
          simp
        have hwnd := hb.wnd
        rcases hcase with ⟨hx0, h⟩ | ⟨hx0, hx1, h⟩ | ⟨hx0, -, ⟨hsyn, -⟩, h⟩ |
          ⟨hx0, -, hw0, hz0, h⟩ | ⟨hx0, hx1, -, hprobe, h⟩
        · rw [h, hkept, trims_pass hb hin (Nat.le_refl _) (fun _ _ => hseq), hlen', hcut.fin,
            hcut.rst, hcut.ackNow, ← TrimIn.left_pass hb hd hlo hhi hdup hgone hx hx0]
          simp
          rfl
        · omega
        · simp [hcut.syn] at hsyn
        · have hxe : x = (s.trimIn so tp).tiLen - (s.trimIn so tp).old := by omega
          rw [h, hkept, trims_cut hb hin (Nat.le_refl _) (by omega) (by omega) (by omega)
            (fun _ _ => hseq), hlen', hcut.rst,
            ← TrimIn.left_probe hb hd hhi hdup hgone (by omega) hx hx0]
          simp
          rfl
        · have hw0 : (s.trimIn so tp).wnd ≠ 0 := fun hz => hprobe ⟨by omega, by omega⟩
          rw [h, trims_dropafterack hb hin hcut.rst, TrimIn.left_drop hb hhi hdup hgone hw0 hx hx0]

/-- A segment that does not start before `rcv_nxt`. -/
theorem trims_right_iff (hd : ¬ 2 ^ 31 < (s.ti.tiSeq - tp.rcvNxt).toNat)
    (hw : tp.rcvWnd.toNat < 2 ^ 31) :
    Trims tp s (trim adjust so tp s.ti s.ti.tiFlags s.bytes) ↔ (s.trimIn so tp).RightOk := by
  have hb := trimIn_bounded so s hw
  have hin := fun i => TrimIn.in_right (i := i) hb hd
  have hlen := TrimIn.tiLen_cases (s.trimIn so tp)
  have hle := hb.len
  have hwnd := hb.wnd
  have hdist := hb.dist
  have hN : (s.trimIn so tp).len = s.data.length := rfl
  have hD : (s.trimIn so tp).dist = (s.ti.tiSeq - tp.rcvNxt).toNat := rfl
  have hW : (s.trimIn so tp).wnd = tp.rcvWnd.toNat := rfl
  have htl := tiLen_eq_trimIn so tp s
  have he : s.ti.tiSeq - tp.rcvNxt = BitVec.ofInt 32 (s.trimIn so tp).dist := by
    rw [hD, BitVec.ofInt_natCast, BitVec.ofNat_toNat, BitVec.setWidth_eq]
  have hseq : s.ti.tiSeq + (if s.ti.tiFlags.thSyn then 1 else 0) = s.first + BitVec.ofNat 32 0 := by
    simp [Segment.first]
  obtain ⟨x, q, hx, hlo, hhi, hcase⟩ := trimRight_cases s.ti.tiFlags adjust s.bytes he
  have hzero : s.ti.tiLen ≠ 0 ↔ (s.trimIn so tp).len ≠ 0 := by
    rw [Ne, ← BitVec.toInt_inj, htl, show (0 : BitVec 16).toInt = 0 from rfl]
    omega
  have hreopen : (s.ti.tiFlags.thSyn = true ∧ tp.tState = .timeWait ∧
      0 < (BitVec.ofInt 32 ((s.trimIn so tp).dist : ℤ)).toInt) ↔
      ((s.trimIn so tp).syn = true ∧ (s.trimIn so tp).timeWait = true ∧ 0 < (s.trimIn so tp).dist ∧
        (s.trimIn so tp).dist < 2 ^ 31) := by
    obtain ⟨q', hq, hlow, hhigh⟩ := toInt_ofInt_spec ((s.trimIn so tp).dist : ℤ)
    have hpos : 0 < (BitVec.ofInt 32 ((s.trimIn so tp).dist : ℤ)).toInt ↔
        0 < (s.trimIn so tp).dist ∧ (s.trimIn so tp).dist < 2 ^ 31 := by omega
    rw [hpos]
    simp [Segment.trimIn]
  rw [htl, ← hW] at hx
  rw [htl, hreopen, ← hW] at hcase
  rw [trim, trimLeft_of_le hd]
  simp only
  split
  · rename_i hreset
    rw [hzero, ← and_assoc, ← gone_iff so tp s] at hreset
    rw [← TrimIn.right_reset hb hreset]
    exact trims_none hb hin rfl trivial rfl Iff.rfl
  · rename_i hreset
    rw [hzero, ← and_assoc, ← gone_iff so tp s] at hreset
    rcases hcase with ⟨hx0, h⟩ | ⟨hx0, hx1, h⟩ | ⟨hx0, hx1, ⟨hsyn, htw, hpos, hlt⟩, h⟩ |
      ⟨hx0, hx1, hw0, hz0, h⟩ | ⟨hx0, hx1, hre, hprobe, h⟩
    · rw [h, bytes_eq_slice, trims_pass hb hin (Nat.le_refl _) (fun _ _ => hseq), htl,
        ← TrimIn.right_pass hb hd hlo hhi hreset hx hx0]
      rfl
    · rw [h, bytes_eq_slice, trims_cut hb hin (Nat.le_refl _) (by omega) (by omega) (by omega)
        (fun _ _ => hseq), htl, ← TrimIn.right_cut hb hd hlo hhi hreset hx hx0 hx1]
      rfl
    · rw [h, ← TrimIn.right_reopen hb hlo hhi hreset hx hx0 hx1 hsyn htw hpos hlt]
      exact trims_none hb hin rfl trivial rfl Iff.rfl
    · have hz : (s.trimIn so tp).dist = 0 := by omega
      rw [h, bytes_eq_slice, trims_cut hb hin (Nat.le_refl _) (by omega) (by omega) (by omega)
        (fun _ _ => hseq), htl, ← TrimIn.right_probe hb hlo hhi hreset hx hx0 hw0 hz]
      simp
      rfl
    · have hprobe' : ¬ ((s.trimIn so tp).wnd = 0 ∧ (s.trimIn so tp).dist = 0) :=
        fun hz => hprobe ⟨hz.1, by omega⟩
      rw [h, trims_dropafterack hb hin rfl,
        TrimIn.right_drop hb hd hlo hhi hreset hx hx0 hx1 hre hprobe']

/-- In every state and for every segment, trimming is right if and only if `TrimIn.Ok` holds. -/
theorem trims_iff_ok (so : Socket) (tp : Tcpcb) (s : Segment α) :
    Trims (setRcvWnd so tp) s (trim adjust so (setRcvWnd so tp) s.ti s.ti.tiFlags s.bytes) ↔
      (s.trimIn so (setRcvWnd so tp)).Ok := by
  have hw := setRcvWnd_lt so tp
  rw [TrimIn.Ok]
  split
  · rename_i hd
    exact trims_left_iff hd hw
  · rename_i hd
    exact trims_right_iff hd hw

end

/-- A connection that waits for the number 1000, with room for 8192 bytes. -/
def tcpAt1000 : Tcpcb := { tcpNewtcpcb with tState := .established, rcvNxt := 1000, rcvAdv := 9192 }

/-- The next two bytes, for that connection. -/
def segmentAt1000 : Segment Byte where
  ti := { tiLen := 2, tiSeq := 1000, tiAck := 1,
          tiFlags := { thFin := false, thSyn := false, thRst := false, thPush := true, thAck := true,
                       thUrg := false }
          tiWin := 8192, tiUrp := 0 }
  data := [7, 8]
  length_le := by decide
  tiLen_eq := rfl

/-- The bytes that the connection waits for do not go on. -/
theorem trim_can_lose_next :
    ¬ Trims (setRcvWnd attachedSocket tcpAt1000) segmentAt1000
      (trim adjust attachedSocket (setRcvWnd attachedSocket tcpAt1000) segmentAt1000.ti
        segmentAt1000.ti.tiFlags segmentAt1000.bytes) := by
  intro h
  have hkept := congrArg List.length h.kept
  revert hkept
  decide

end Shaunos.Net
