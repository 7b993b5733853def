import Shaunos.Common.Run
import Shaunos.Mm.MapPages

/-!
# The heap of a process

Reference: `Kernel/kthread.c` (`ksbrk`).

A call adds an increment to the break, maps the pages up to the new one, and returns the old one. The number of
pages is that of an unsigned difference, so a break that gets smaller asks for nearly all pages there are. Nothing
is ever unmapped, and no failure is looked at.

* `ksbrk_right_iff` — a run of calls is right just if each of them stays in the page of the break, or asks for
  more, and there is room for it.
-/

namespace Shaunos.Mm

/-! ## The code -/

/-- A process, with `mm.image.brk`. -/
structure BrkState where
  proc : PageState
  brk : BitVec 32

/-- The flags of a page of the heap. -/
def heapFlags : BitVec 32 := pagePRE ||| pageRW ||| pageUSR

/-- One turn of the loop of `ksbrk`. -/
def ksbrkStep (dest : BitVec 32) (s : PageState) : Option (ℤ × PageState) :=
  let (addr, s) := getZeroPage s
  (mapPage dest (pa addr) heapFlags s).bind fun (_, s) => (vmInsert addr 4096 vmCOMMON s).map fun s => (0, s)

/-- The loop of `ksbrk`. -/
def ksbrkLoop : ℕ → BitVec 32 → PageState → Option PageState
  | 0, _, s => some s
  | n + 1, dest, s => (ksbrkStep dest s).bind fun (_, s) => ksbrkLoop n (dest + 4096) s

/-- `ksbrk`. -/
def ksbrk (incr : BitVec 32) (st : BrkState) : Option (BitVec 32 × BrkState) :=
  if incr = 0 then some (st.brk, st)
  else
    let endBrk := pageAlign (st.brk + incr)
    let pageNum := ((endBrk - st.brk) >>> 12).toInt
    (ksbrkLoop pageNum.toNat st.brk st.proc).map fun s => (st.brk, ⟨s, endBrk⟩)

/-! ## What it should do -/

/-- A page holds an address between two others. -/
def Between (lo hi : ℕ) (k : BitVec 10 × BitVec 10) : Prop := ∃ a : BitVec 32, lo ≤ a.toNat ∧ a.toNat < hi ∧ slot a = k

/-- Where a process starts: what is mapped, the break, and where the user's stack begins. -/
structure BrkStart where
  mapping : BitVec 10 × BitVec 10 → Option (BitVec 32)
  brk : ℕ
  stack : ℕ
  stack_le : stack ≤ pageOffset.toNat

section

variable (start : BrkStart)

/-- The heap is mapped, and nothing else is since the start; the break is on a page, and not above the stack. -/
structure HeapRight (st : BrkState) : Prop where
  mapped : ∀ k, st.proc.as.mapping k ≠ none ↔ start.mapping k ≠ none ∨ Between start.brk st.brk.toNat k
  apart : ∀ k, Between start.brk st.brk.toNat k → start.mapping k = none
  same : ∀ k x, start.mapping k = some x → st.proc.as.mapping k = some x
  aligned : st.brk.toNat % 4096 = 0
  range : start.brk ≤ st.brk.toNat ∧ st.brk.toNat ≤ start.stack

/-- The break that is asked for. -/
def wanted (incr : BitVec 32) (st : BrkState) : ℤ := ((st.brk.toNat + incr.toInt) + 4095) / 4096 * 4096

/-- The pages that are asked for. -/
def wantedPages (incr : BitVec 32) (st : BrkState) : List (BitVec 32) :=
  pageRun st.brk ((wanted incr st - st.brk.toNat).toNat / 4096)

/-- The break can be moved: it does not get below its start or above the stack, and what is asked for is not mapped
and there are frames and entries for it. -/
structure Satisfiable (incr : BitVec 32) (st : BrkState) : Prop where
  low : (start.brk : ℤ) ≤ wanted incr st
  high : wanted incr st ≤ start.stack
  unmapped : ∀ a ∈ wantedPages incr st, st.proc.Unmapped a
  enough : st.proc.Enough (wantedPages incr st)

/-- The negation of an error number. -/
def IsError (ret : BitVec 32) : Prop := 2 ^ 32 - 4096 < ret.toNat

/-- A call moves the break and returns the old one, or it fails and changes nothing. -/
def CallRight (incr : BitVec 32) (st : BrkState) (run : Option (BitVec 32 × BrkState)) : Prop :=
  (Satisfiable start incr st → ∃ st', run = some (st.brk, st') ∧ (st'.brk.toNat : ℤ) = wanted incr st ∧
      HeapRight start st') ∧
    (¬ Satisfiable start incr st → ∃ ret st', run = some (ret, st') ∧ IsError ret ∧ st'.brk = st.brk ∧
      st'.proc.as.mapping = st.proc.as.mapping)

/-- The break stays in its page, or more is asked for and there is room. -/
def CallOk (incr : BitVec 32) (st : BrkState) : Prop :=
  (-4096 < incr.toInt ∧ incr.toInt ≤ 0) ∨ (0 < incr.toInt ∧ Satisfiable start incr st)

end

/-! ## One turn of the loop -/

section

variable {s s' : PageState} {a : BitVec 32} {k : BitVec 10 × BitVec 10}

theorem heapFlags_ok : PageFlags heapFlags where
  low := by decide
  present := by decide
  small := by decide

/-- A turn maps a page, if there are enough frames and entries. -/
theorem ksbrkStep_grows (hs : s.Ok) (hmap : s.Unmapped a) (henough : s.EnoughOne a) :
    PageStep heapFlags a s (ksbrkStep a s) := by
  obtain ⟨hfree, hvm⟩ := henough
  obtain ⟨f, rest, hcons⟩ := List.exists_cons_of_length_pos (show 0 < s.free.length by omega)
  have hlow := kernelAddr_ne_zero (hs.low f (hcons ▸ List.mem_cons_self))
  -- the page is taken, then mapped, then written down
  obtain ⟨hpage, hgrow₀⟩ := getZeroPage_grows hs hcons
  have hvm₀ := hgrow₀.vmFree
  have hfree₀ := hgrow₀.perm.length_eq
  have hneed : (getZeroPage s).2.need a = s.need a := hgrow₀.need_eq rfl a
  simp only [List.length_append, List.length_cons, List.length_nil] at hvm₀ hfree₀
  obtain ⟨s₁, t, hrun, hgrow₁, hlen⟩ := mapPage_grows hgrow₀.ok heapFlags_ok (hgrow₀.unmapped rfl hmap) (by omega)
    (by omega) f
  have hvm₁ := hgrow₁.vmFree
  have hents : ((tableGain a t).append ⟨[], [], [(a, frameAddr f ||| heapFlags)], [], []⟩).ents.length =
      t.toList.length := by simp [Gain.append, tableGain]
  rw [hents] at hvm₁
  obtain ⟨s₂, hins, hgrow₂⟩ := vmInsert_grows hgrow₁.ok 4096 vmCOMMON hlow
    (show 0 < _ by omega)
  refine ⟨s₂, _, f, t.toList, ?_, hgrow₀.trans hs (hgrow₁.trans hgrow₀.ok hgrow₂), ?_, hlen.trans hneed, ?_⟩
  · rw [ksbrkStep, hpage]
    dsimp only
    rw [show pa (kernelAddr f) = frameAddr f from pa_va, hrun, Option.bind_some]
    dsimp only
    rw [hins]
    rfl
  · refine ⟨rfl, ?_, ?_, rfl, ?_⟩
    · simp [Gain.append, tableGain]
    · simp only [Gain.append, tableGain, List.map_cons, List.map_nil, List.append_nil, List.nil_append]
      exact List.perm_append_comm
    · simp [Gain.append, tableGain]
  · intro i
    rw [hgrow₂.present, hgrow₁.present]
    have hdirs : i ∈ ((tableGain a t).append ⟨[], [], [(a, frameAddr f ||| heapFlags)], [], []⟩).dirs ↔
        i ∈ (tableGain a t).dirs := by simp [Gain.append]
    rw [hdirs, present_tableGain hlen, hgrow₀.present]
    simp only [List.not_mem_nil, or_false]

/-- The result of `map_page` is not looked at. -/
theorem ksbrkStep_ret {r : ℤ × PageState} (h : ksbrkStep a s = some r) : r.1 = 0 := by
  rw [ksbrkStep] at h
  obtain ⟨r₁, -, h⟩ := Option.bind_eq_some_iff.mp h
  obtain ⟨s', -, rfl⟩ := Option.map_eq_some_iff.mp h
  rfl

theorem ksbrkLoop_eq (n : ℕ) (dest : BitVec 32) (s : PageState) :
    ksbrkLoop n dest s = (stepAll ksbrkStep (pageRun dest n) s).map Prod.snd := by
  induction n generalizing dest s with
  | zero => rfl
  | succ n ih =>
      rw [ksbrkLoop, pageRun, stepAll]
      cases hstep : ksbrkStep dest s with
      | none => rfl
      | some r =>
          have hret : ¬ r.1 < 0 := by rw [ksbrkStep_ret hstep]; exact lt_irrefl 0
          simp only [Option.bind_some, hret, if_false]
          exact ih _ _

/-! ## Nothing is unmapped -/

/-- A page is mapped by a page table that is not free. -/
structure Held (s : PageState) (k : BitVec 10 × BitVec 10) : Prop where
  table : s.as.HasTable k.1
  used : frame (s.as.pgd k.1) ∉ s.free
  present : (s.as.table (frame (s.as.pgd k.1)) k.2).getLsbD pgBitPresent = true

theorem Held.mapping (h : Held s k) : s.as.mapping k ≠ none := by
  rw [AddrSpace.mapping_of_hasTable h.table rfl, if_pos h.present]
  exact Option.some_ne_none _

theorem PageState.Ok.held (hs : s.Ok) {x : BitVec 32} (hx : s.as.mapping k = some x)
    (hpse : x.getLsbD pgBitPse = false) : Held s k := by
  have htable : s.as.HasTable k.1 := by
    rw [AddrSpace.mapping] at hx
    dsimp only at hx
    split_ifs at hx with hpresent hlarge
    · rw [← Option.some.inj hx, hlarge] at hpse
      cases hpse
    · exact ⟨Bool.eq_true_of_not_eq_false hpresent, Bool.eq_false_of_not_eq_true hlarge⟩
  refine ⟨htable, hs.unused _ htable, ?_⟩
  by_contra hpresent
  rw [AddrSpace.mapping_of_hasTable htable rfl, if_neg hpresent] at hx
  cases hx

theorem Held.getZeroPage (h : Held s k) : Held (getZeroPage s).2 k := by
  obtain ⟨htable, hused, hpresent⟩ := h
  cases hfree : s.free with
  | nil =>
      rw [Mm.getZeroPage, hfree]
      exact ⟨htable, hused, hpresent⟩
  | cons f rest =>
      rw [hfree, List.mem_cons, not_or] at hused
      rw [Mm.getZeroPage, hfree]
      refine ⟨htable, hused.2, ?_⟩
      dsimp only
      rwa [Function.update_of_ne hused.1]

theorem Held.vmInsert (h : Held s k) {base len flag : BitVec 32} (hrun : vmInsert base len flag s = some s') :
    Held s' k := by
  obtain ⟨vm, -, rfl⟩ := Option.map_eq_some_iff.mp hrun
  exact ⟨h.table, h.used, h.present⟩

theorem getZeroPage_pgd (s : PageState) : (getZeroPage s).2.as.pgd = s.as.pgd := by
  rw [getZeroPage]
  cases s.free <;> rfl

theorem Held.setPgd (h : Held s k) {i : BitVec 10} {x : BitVec 32}
    (hi : (s.as.pgd i).getLsbD pgBitPresent = false) : Held (setPgd i x s) k := by
  have hne : k.1 ≠ i := by
    rintro rfl
    exact absurd (hi.symm.trans h.table.1) (by decide)
  have hpgd : (Mm.setPgd i x s).as.pgd k.1 = s.as.pgd k.1 := Function.update_of_ne hne ..
  exact ⟨⟨hpgd ▸ h.table.1, hpgd ▸ h.table.2⟩, by rw [hpgd]; exact h.used, by rw [hpgd]; exact h.present⟩

theorem Held.setPte (h : Held s k) {f : BitVec 20} {j : BitVec 10} {x : BitVec 32}
    (hx : x.getLsbD pgBitPresent = true) : Held (setPte f j x s) k := by
  refine ⟨h.table, h.used, ?_⟩
  show (Function.update s.as.table f (Function.update (s.as.table f) j x) (frame (s.as.pgd k.1)) k.2).getLsbD _ = true
  by_cases hf : frame (s.as.pgd k.1) = f
  · rw [hf, Function.update_self]
    by_cases hj : k.2 = j
    · rw [hj, Function.update_self]
      exact hx
    · rw [Function.update_of_ne hj, ← hf]
      exact h.present
  · rw [Function.update_of_ne hf]
    exact h.present

/-- `map_page` unmaps nothing. -/
theorem Held.mapPage (h : Held s k) {addr pAddr flags : BitVec 32} (hflags : PageFlags flags) {r : ℤ × PageState}
    (hrun : mapPage addr pAddr flags s = some r) : Held r.2 k := by
  have hentry : (pAddr ||| flags).getLsbD pgBitPresent = true := by
    rw [BitVec.getLsbD_or, hflags.present, Bool.or_true]
  rw [Mm.mapPage, if_neg (by rw [hflags.small]; decide)] at hrun
  obtain ⟨⟨pde, s₁⟩, htable, hrun⟩ := Option.bind_eq_some_iff.mp hrun
  have hheld : Held s₁ k := by
    rw [pageTable] at htable
    split_ifs at htable with habsent
    · dsimp only at htable
      split_ifs at htable with hzero
      obtain ⟨s₂, hins, heq⟩ := Option.map_eq_some_iff.mp htable
      obtain rfl : s₂ = s₁ := congrArg Prod.snd heq
      exact (h.getZeroPage.setPgd (by rw [getZeroPage_pgd]; exact habsent)).vmInsert hins
    · obtain rfl : s = s₁ := congrArg Prod.snd (Option.some.inj htable)
      exact h
  dsimp only at hrun
  split_ifs at hrun
  obtain rfl := Option.some.inj hrun
  exact hheld.setPte hentry

theorem Held.ksbrkLoop {n : ℕ} {dest : BitVec 32} (h : Held s k) (hrun : ksbrkLoop n dest s = some s') :
    Held s' k := by
  induction n generalizing dest s with
  | zero =>
      obtain rfl := Option.some.inj hrun
      exact h
  | succ n ih =>
      obtain ⟨⟨ret, s₁⟩, hstep, hrest⟩ := Option.bind_eq_some_iff.mp hrun
      refine ih ?_ hrest
      rw [ksbrkStep] at hstep
      obtain ⟨⟨ret₂, s₂⟩, hmap, hstep⟩ := Option.bind_eq_some_iff.mp hstep
      obtain ⟨s₃, hins, heq⟩ := Option.map_eq_some_iff.mp hstep
      obtain rfl : s₃ = s₁ := congrArg Prod.snd heq
      exact (h.getZeroPage.mapPage heapFlags_ok hmap).vmInsert hins

end

/-! ## The break -/

section

variable {start : BrkStart} {st st' : BrkState} {incr : BitVec 32}

/-- The new break is the one that is asked for, in 32 bits. -/
theorem toNat_endBrk (incr : BitVec 32) (st : BrkState) :
    ((pageAlign (st.brk + incr)).toNat : ℤ) = wanted incr st % 2 ^ 32 := by
  have hmod : (pageAlign (st.brk + incr)).toNat =
      ((st.brk.toNat + incr.toNat) % 2 ^ 32 + 4095) % 2 ^ 32 / 4096 * 4096 := by
    rw [pageAlign, toNat_pageBase, BitVec.toNat_add, BitVec.toNat_add]
    rfl
  rw [hmod, wanted, BitVec.toInt_eq_toNat_cond]
  have hlt := incr.isLt
  split_ifs <;> omega

/-- The number of turns: the difference, in 32 bits. -/
theorem toNat_pageNum (hal : st.brk.toNat % 4096 = 0) (incr : BitVec 32) :
    (((pageAlign (st.brk + incr) - st.brk) >>> 12).toInt.toNat : ℤ) =
      (wanted incr st - st.brk.toNat) % 2 ^ 32 / 4096 := by
  have hend := toNat_endBrk incr st
  have hlt := st.brk.isLt
  have hshift : ((pageAlign (st.brk + incr) - st.brk) >>> 12).toNat =
      ((pageAlign (st.brk + incr)).toNat + (2 ^ 32 - st.brk.toNat)) % 2 ^ 32 / 4096 := by
    rw [BitVec.toNat_ushiftRight, BitVec.toNat_sub, Nat.shiftRight_eq_div_pow, add_comm]
  rw [BitVec.toInt_eq_toNat_cond, hshift]
  split_ifs <;> omega

/-- The pages up to the new break. -/
theorem between_append {dest : BitVec 32} {lo n : ℕ} {k : BitVec 10 × BitVec 10} (hal : dest.toNat % 4096 = 0)
    (hlo : lo ≤ dest.toNat) (hfit : dest.toNat + 4096 * n ≤ 2 ^ 32) :
    Between lo (dest.toNat + 4096 * n) k ↔ Between lo dest.toNat k ∨ k ∈ (pageRun dest n).map slot := by
  rw [List.mem_map]
  constructor
  · rintro ⟨a, hge, hlt, rfl⟩
    by_cases hold : a.toNat < dest.toNat
    · exact .inl ⟨a, hge, hold, rfl⟩
    · have hpage := toNat_pageBase a
      refine .inr ⟨a &&& ~~~4095#32, (mem_pageRun hfit).mpr ⟨a.toNat / 4096 - dest.toNat / 4096, ?_, ?_⟩, ?_⟩
      · omega
      · omega
      · rw [slot_eq_iff]
        omega
  · rintro (⟨a, hge, hlt, rfl⟩ | ⟨a, ha, rfl⟩)
    · exact ⟨a, hge, by omega, rfl⟩
    · obtain ⟨i, hi, hval⟩ := (mem_pageRun hfit).mp ha
      exact ⟨a, by omega, by omega, rfl⟩

/-- The state between the calls: the pages of the heap are not large ones. -/
structure BrkInv (start : BrkStart) (st : BrkState) : Prop where
  ok : st.proc.Ok
  right : HeapRight start st
  small : ∀ k, Between start.brk st.brk.toNat k →
    ∃ x, st.proc.as.mapping k = some x ∧ x.getLsbD pgBitPse = false

/-- **A break that moves up is moved**, if there is room. -/
theorem BrkInv.grow (h : BrkInv start st) (hge : (st.brk.toNat : ℤ) ≤ wanted incr st) (hsat : Satisfiable start incr st) :
    ∃ s', ksbrkLoop (((pageAlign (st.brk + incr) - st.brk) >>> 12).toInt.toNat) st.brk st.proc = some s' ∧
      ((pageAlign (st.brk + incr)).toNat : ℤ) = wanted incr st ∧
      BrkInv start ⟨s', pageAlign (st.brk + incr)⟩ := by
  have hal := h.right.aligned
  have hstack := start.stack_le
  have hoff : pageOffset.toNat = 0xC0000000 := rfl
  have hend := toNat_endBrk incr st
  have hturns := toNat_pageNum hal incr
  have hhigh := hsat.high
  have hlow := h.right.range.1
  set n := ((pageAlign (st.brk + incr) - st.brk) >>> 12).toInt.toNat with hn
  -- the new break, and as many turns as pages
  have hW : ((pageAlign (st.brk + incr)).toNat : ℤ) = wanted incr st := by omega
  have hWal : wanted incr st % 4096 = 0 := by rw [wanted]; omega
  have hnew : (pageAlign (st.brk + incr)).toNat = st.brk.toNat + 4096 * n := by omega
  have hpages : wantedPages incr st = pageRun st.brk n := by
    rw [wantedPages]
    congr 1
    omega
  have hfit : st.brk.toNat + 4096 * n ≤ 2 ^ 32 := by omega
  have hunmapped := hsat.unmapped
  have henough := hsat.enough
  rw [hpages] at hunmapped henough
  have hnodup := nodup_pageRun hfit
  obtain ⟨s', g, ps, ts, hrun, hgrow, hgain⟩ := stepAll_grows (fun s a => ksbrkStep_grows (s := s) (a := a)) h.ok
    hunmapped hnodup henough
  have hnone : ∀ k ∈ (pageRun st.brk n).map slot, st.proc.as.mapping k = none := by
    intro k hk
    obtain ⟨a, ha, rfl⟩ := List.mem_map.mp hk
    exact hunmapped a ha
  have hbetween := fun k => between_append (k := k) hal hlow hfit
  -- the new pages have entries of their own
  have hentry : ∀ k ∈ (pageRun st.brk n).map slot,
      ∃ x, s'.as.mapping k = some x ∧ x.getLsbD pgBitPse = false := by
    intro k hk
    obtain ⟨a, ha, rfl⟩ := List.mem_map.mp hk
    obtain ⟨i, hi⟩ := List.mem_iff_getElem?.mp ha
    have hlt : i < ps.length := by
      rw [hgain.length]
      exact (List.getElem?_eq_some_iff.mp hi).1
    exact ⟨_, hgain.mapping hgrow hnodup hi (List.getElem?_eq_getElem hlt), heapFlags_ok.small_entry⟩
  have hold : ∀ k, st.proc.as.mapping k ≠ none → s'.as.mapping k = st.proc.as.mapping k :=
    fun k hk => hgain.others hgrow fun hmem => hk (hnone k hmem)
  refine ⟨s', by rw [ksbrkLoop_eq, hrun]; rfl, hW, hgrow.ok, ⟨?_, ?_, ?_, ?_, ?_⟩, ?_⟩
  · intro k
    show s'.as.mapping k ≠ none ↔ _ ∨ Between start.brk (pageAlign (st.brk + incr)).toNat k
    rw [hnew, hbetween]
    by_cases hk : k ∈ (pageRun st.brk n).map slot
    · obtain ⟨x, hx, -⟩ := hentry k hk
      rw [hx]
      exact iff_of_true (Option.some_ne_none _) (.inr (.inr hk))
    · rw [hgain.others hgrow hk, h.right.mapped k]
      simp only [hk, or_false]
  · intro k hk
    have hk' : Between start.brk (pageAlign (st.brk + incr)).toNat k := hk
    rw [hnew, hbetween] at hk'
    rcases hk' with hk' | hk'
    · exact h.right.apart k hk'
    · by_contra hstart
      exact (h.right.mapped k).mpr (.inl hstart) (hnone k hk')
  · intro k x hx
    have hx' := h.right.same k x hx
    exact (hold k (by rw [hx']; exact Option.some_ne_none x)).trans hx'
  · show (pageAlign (st.brk + incr)).toNat % 4096 = 0
    omega
  · show start.brk ≤ (pageAlign (st.brk + incr)).toNat ∧ (pageAlign (st.brk + incr)).toNat ≤ start.stack
    omega
  · intro k hk
    have hk' : Between start.brk (pageAlign (st.brk + incr)).toNat k := hk
    rw [hnew, hbetween] at hk'
    rcases hk' with hk' | hk'
    · obtain ⟨x, hx, hsmall⟩ := h.small k hk'
      exact ⟨x, (hold k (by rw [hx]; exact Option.some_ne_none x)).trans hx, hsmall⟩
    · exact hentry k hk'

/-- A call that does something moves the break. -/
theorem ksbrk_of_ne_zero (hincr : incr ≠ 0) {run : BitVec 32 × BrkState} (hrun : ksbrk incr st = some run) :
    ∃ s', ksbrkLoop (((pageAlign (st.brk + incr) - st.brk) >>> 12).toInt.toNat) st.brk st.proc = some s' ∧
      run = (st.brk, ⟨s', pageAlign (st.brk + incr)⟩) := by
  rw [ksbrk, if_neg hincr] at hrun
  obtain ⟨s', hloop, heq⟩ := Option.map_eq_some_iff.mp hrun
  exact ⟨s', hloop, heq.symm⟩

/-- A break that stays in its page can be left where it is. -/
theorem BrkInv.satisfiable_of_same (h : BrkInv start st) (hsame : wanted incr st = st.brk.toNat) :
    Satisfiable start incr st := by
  have hpages : wantedPages incr st = [] := by
    rw [wantedPages, hsame, sub_self]
    rfl
  refine ⟨?_, ?_, ?_, ?_⟩
  · rw [hsame]
    exact_mod_cast h.right.range.1
  · rw [hsame]
    exact_mod_cast h.right.range.2
  · rw [hpages]
    exact fun a ha => absurd ha List.not_mem_nil
  · rw [hpages]
    exact ⟨Nat.zero_le _, Nat.zero_le _⟩

/-- A break that does not move down is moved if there is room. -/
theorem BrkInv.callRight (h : BrkInv start st) (hge : (st.brk.toNat : ℤ) ≤ wanted incr st)
    (hsat : Satisfiable start incr st) :
    ∃ st', ksbrk incr st = some (st.brk, st') ∧ (st'.brk.toNat : ℤ) = wanted incr st ∧ BrkInv start st' := by
  by_cases hincr : incr = 0
  · subst hincr
    have hal := h.right.aligned
    have hzero : (0 : BitVec 32).toInt = 0 := rfl
    have hsame : wanted 0 st = st.brk.toNat := by
      rw [wanted, hzero]
      omega
    exact ⟨st, by rw [ksbrk, if_pos rfl], hsame.symm, h⟩
  · obtain ⟨s', hloop, hW, hinv⟩ := h.grow hge hsat
    refine ⟨⟨s', pageAlign (st.brk + incr)⟩, ?_, hW, hinv⟩
    rw [ksbrk, if_neg hincr]
    dsimp only
    rw [hloop]
    rfl

/-- A break that should move down keeps its pages. -/
theorem BrkInv.not_shrunk (h : BrkInv start st) (hlt : wanted incr st < st.brk.toNat)
    (hlow : (start.brk : ℤ) ≤ wanted incr st) {s' : PageState} {n : ℕ} (hloop : ksbrkLoop n st.brk st.proc = some s')
    {brk : BitVec 32} (hbrk : (brk.toNat : ℤ) = wanted incr st) : ¬ HeapRight start ⟨s', brk⟩ := by
  intro hright
  have hal := hright.aligned
  dsimp only at hal
  have hin : Between start.brk st.brk.toNat (slot brk) := ⟨brk, by omega, by omega, rfl⟩
  obtain ⟨x, hx, hsmall⟩ := h.small _ hin
  have hheld := ((h.ok.held hx hsmall).ksbrkLoop hloop).mapping
  rcases (hright.mapped _).mp hheld with hstart | hin'
  · exact hstart (h.right.apart _ hin)
  · obtain ⟨a, hge, hlt', hslot⟩ := hin'
    dsimp only at hlt'
    rw [slot_eq_iff] at hslot
    omega

/-- What is asked for can be had, and the break does not move down. -/
theorem BrkInv.room (h : BrkInv start st) (hok : CallOk start incr st) :
    (st.brk.toNat : ℤ) ≤ wanted incr st ∧ Satisfiable start incr st := by
  have hal := h.right.aligned
  have hW : wanted incr st = ((st.brk.toNat + incr.toInt) + 4095) / 4096 * 4096 := rfl
  rcases hok with hstay | ⟨hpos, hsat⟩
  · have hsame : wanted incr st = st.brk.toNat := by omega
    exact ⟨hsame.ge, h.satisfiable_of_same hsame⟩
  · exact ⟨by omega, hsat⟩

/-- **A call is right** just if the break stays in its page, or more is asked for and there is room. -/
theorem BrkInv.callRight_iff (h : BrkInv start st) (incr : BitVec 32) :
    CallRight start incr st (ksbrk incr st) ↔ CallOk start incr st := by
  have hal := h.right.aligned
  have hlt := st.brk.isLt
  have hincrLt := incr.isLt
  have hend := toNat_endBrk incr st
  have hint := BitVec.toInt_eq_toNat_cond incr
  have hW : wanted incr st = ((st.brk.toNat + incr.toInt) + 4095) / 4096 * 4096 := rfl
  constructor
  · rintro ⟨hyes, hno⟩
    by_cases hstay : -4096 < incr.toInt ∧ incr.toInt ≤ 0
    · exact .inl hstay
    have hne : incr ≠ 0 := by
      rintro rfl
      exact hstay (by decide)
    -- a call that is refused moves the break all the same
    have hsat : Satisfiable start incr st := by
      by_contra hsat
      obtain ⟨ret, st', hrun, -, hbrk, -⟩ := hno hsat
      obtain ⟨s', -, heq⟩ := ksbrk_of_ne_zero hne hrun
      have hst' : st'.brk = pageAlign (st.brk + incr) := congrArg (fun run => run.2.brk) heq
      rw [hst'] at hbrk
      rw [hbrk] at hend
      split_ifs at hint <;> omega
    refine .inr ⟨?_, hsat⟩
    by_contra hneg
    obtain ⟨st', hrun, hbrk, hright⟩ := hyes hsat
    obtain ⟨s', hloop, heq⟩ := ksbrk_of_ne_zero hne hrun
    obtain rfl : st' = ⟨s', pageAlign (st.brk + incr)⟩ := congrArg Prod.snd heq
    exact h.not_shrunk (by omega) hsat.low hloop hbrk hright
  · intro hok
    obtain ⟨hge, hsat⟩ := h.room hok
    obtain ⟨st', hrun, hbrk, hinv⟩ := h.callRight hge hsat
    exact ⟨fun _ => ⟨st', hrun, hbrk, hinv.right⟩, fun hno => absurd hsat hno⟩

/-- `ksbrk`, as a step of a run. -/
def brkStep (st : BrkState) (incr : BitVec 32) : Option BrkState := (ksbrk incr st).map Prod.snd

theorem BrkInv.keep (h : BrkInv start st) (hok : CallOk start incr st) (hstep : brkStep st incr = some st') :
    BrkInv start st' := by
  obtain ⟨hge, hsat⟩ := h.room hok
  obtain ⟨st₁, hrun, -, hinv⟩ := h.callRight hge hsat
  rw [brkStep, hrun] at hstep
  exact Option.some.inj hstep ▸ hinv

/-- A process before its first `ksbrk`. -/
structure AtStart (start : BrkStart) (st : BrkState) : Prop where
  ok : st.proc.Ok
  mapping : st.proc.as.mapping = start.mapping
  brk : st.brk.toNat = start.brk
  aligned : st.brk.toNat % 4096 = 0
  low : st.brk.toNat ≤ start.stack

theorem AtStart.inv (h : AtStart start st) : BrkInv start st := by
  have hnone : ∀ k, ¬ Between start.brk st.brk.toNat k := by
    rintro k ⟨a, hge, hlt, -⟩
    have := h.brk
    omega
  refine ⟨h.ok, ⟨?_, ?_, ?_, h.aligned, h.brk.ge, h.low⟩, fun k hk => absurd hk (hnone k)⟩
  · intro k
    rw [h.mapping, or_iff_left (hnone k)]
  · exact fun k hk => absurd hk (hnone k)
  · intro k x hx
    rw [h.mapping]
    exact hx

/-- **A run of calls is right** just if each of them leaves the break in its page, or asks for more and there is
room. -/
theorem ksbrk_right_iff (h : AtStart start st) (incrs : List (BitVec 32)) :
    AllCalls brkStep (fun st incr => CallRight start incr st (ksbrk incr st)) st incrs ↔
      AllCalls brkStep (fun st incr => CallOk start incr st) st incrs :=
  allCalls_iff_of_inv (BrkInv start) (fun _ incr hinv => hinv.callRight_iff incr)
    (fun _ _ _ hinv hok hstep => hinv.keep hok hstep) h.inv incrs

end

/-! ## A process with an empty heap -/

/-- Nothing is mapped, and the break is far below the stack. -/
def emptyStart : BrkStart where
  mapping := emptyProc.as.mapping
  brk := 0x800000
  stack := 0x7FFFC000
  stack_le := by decide

theorem emptyStart_atStart {s : PageState} (hs : s.Ok) (has : s.as = emptyProc.as) : AtStart emptyStart ⟨s, 0x800000⟩ where
  ok := hs
  mapping := congrArg AddrSpace.mapping has
  brk := rfl
  aligned := show (0x800000 : BitVec 32).toNat % 4096 = 0 by decide
  low := show (0x800000 : BitVec 32).toNat ≤ 0x7FFFC000 by decide

theorem satisfiable_hundred : Satisfiable emptyStart 100 ⟨emptyProc, 0x800000⟩ := by
  have hpages : wantedPages 100 ⟨emptyProc, 0x800000⟩ = [0x800000] := by decide +kernel
  refine ⟨by decide, by decide, ?_, ?_⟩
  · rw [hpages]
    intro a _
    exact if_pos (emptyProc_absent (slot a).1)
  · rw [hpages]
    decide +kernel

/-- A hundred bytes more, and fifty less. -/
theorem ksbrk_right_iff_hundred :
    AllCalls brkStep (fun st incr => CallRight emptyStart incr st (ksbrk incr st)) ⟨emptyProc, 0x800000⟩ [100, -50] :=
  (ksbrk_right_iff (emptyStart_atStart emptyProc_ok rfl) [100, -50]).mpr
    ⟨.inr ⟨by decide, satisfiable_hundred⟩, fun _ _ => ⟨.inl ⟨by decide, by decide⟩, fun _ _ => trivial⟩⟩

/-- `mm.vm_page` with all entries used. -/
def fullTable : List VmT := List.replicate 341 ⟨0xC0100000, 4096, vmCOMMON⟩

theorem fullTable_ok : PageState.Ok { emptyProc with vmPage := fullTable } where
  nodup := emptyProc_ok.nodup
  low := emptyProc_ok.low
  unused := emptyProc_ok.unused
  apart := emptyProc_ok.apart
  clear := emptyProc_ok.clear
  vmMax := List.length_replicate ..

/-- A byte that there is no entry for: the call does not come back. -/
theorem ksbrk_can_stop :
    (ksbrk 1 ⟨{ emptyProc with vmPage := fullTable }, 0x800000⟩).isNone = true ∧
      ¬ ∀ (start : BrkStart) (st : BrkState) (incrs : List (BitVec 32)), AtStart start st →
        AllCalls brkStep (fun st incr => CallRight start incr st (ksbrk incr st)) st incrs := by
  have hrun : (ksbrk 1 ⟨{ emptyProc with vmPage := fullTable }, 0x800000⟩).isNone = true := by decide +kernel
  refine ⟨hrun, fun hall => ?_⟩
  obtain ⟨⟨hyes, hno⟩, -⟩ := hall emptyStart _ [1] (emptyStart_atStart fullTable_ok rfl)
  rw [Option.isNone_iff_eq_none] at hrun
  by_cases hsat : Satisfiable emptyStart 1 ⟨{ emptyProc with vmPage := fullTable }, 0x800000⟩
  · obtain ⟨st', hrun', -⟩ := hyes hsat
    rw [hrun] at hrun'
    cases hrun'
  · obtain ⟨ret, st', hrun', -⟩ := hno hsat
    rw [hrun] at hrun'
    cases hrun'

end Shaunos.Mm
