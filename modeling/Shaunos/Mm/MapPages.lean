import Shaunos.Mm.PageMap

/-!
# Mapping a range

Reference: `Kernel/page.c` (`map_pages`).

The number of pages is that of the size, and one more if the offset in the first page and the rest of the size are
more than a page together. A size that is a multiple of the page has no rest, so its last page is left out when the
range does not start on a page.

* `stepAll_grows`, `stepAll_of_few` — pages mapped one after the other, as far as frames and entries go;
* `mapPages_right_iff` — when just the pages of the range get mapped.
-/

namespace Shaunos.Mm

/-! ## The code -/

/-- One turn of the loop of `map_pages`. -/
def mapPagesStep (flag : BitVec 32) (dest : BitVec 32) (s : PageState) : Option (ℤ × PageState) :=
  let (page, s) := getZeroPage s
  if page = 0 then none
  else (vmInsert page 4096 vmCOMMON s).bind fun s => mapPage dest (pa page) flag s

/-- The loop of `map_pages`. -/
def mapPagesLoop (flag : BitVec 32) : ℕ → BitVec 32 → PageState → Option (ℤ × PageState)
  | 0, _, s => some (0, s)
  | i + 1, dest, s =>
      (mapPagesStep flag dest s).bind fun (ret, s) =>
        if ret < 0 then some (-1, s) else mapPagesLoop flag i (dest + 4096) s

/-- The number of pages that `map_pages` counts. -/
def nrPages (addr size : BitVec 32) : BitVec 32 :=
  let pageOff := addr &&& 0xFFF
  let i := pageAlign size >>> 12
  if pageOff + size % 4096 > 4096 then i + 1 else i

/-- `map_pages`, for a process. -/
def mapPages (addr size flag : BitVec 32) (s : PageState) : Option (ℤ × PageState) :=
  let dest := addr &&& ~~~4095#32
  let flag := flag ||| pagePRE
  let flag := if addr < pageOffset then flag ||| pageUSR else flag
  mapPagesLoop flag (nrPages addr size).toNat dest s

/-! ## Pages in a row -/

/-- Some pages one after the other. -/
def pageRun : BitVec 32 → ℕ → List (BitVec 32)
  | _, 0 => []
  | dest, n + 1 => dest :: pageRun (dest + 4096) n

section

variable {a b dest : BitVec 32} {n : ℕ}

/-- Two addresses are in one page if the processor looks up the same entries for them. -/
theorem slot_eq_iff : slot a = slot b ↔ a.toNat / 4096 = b.toNat / 4096 := by
  have hpde : ∀ x : BitVec 32, (pdeIndex x).toNat = x.toNat / 4194304 := by
    intro x
    rw [pdeIndex, BitVec.extractLsb'_toNat, Nat.shiftRight_eq_div_pow]
    omega
  have hpte : ∀ x : BitVec 32, (pteIndex x).toNat = x.toNat / 4096 % 1024 := by
    intro x
    rw [pteIndex, BitVec.extractLsb'_toNat, Nat.shiftRight_eq_div_pow]
  rw [slot, slot, Prod.mk.injEq, ← BitVec.toNat_inj, ← BitVec.toNat_inj, hpde, hpde, hpte, hpte]
  omega

theorem length_pageRun (dest : BitVec 32) (n : ℕ) : (pageRun dest n).length = n := by
  induction n generalizing dest with
  | zero => rfl
  | succ n ih => rw [pageRun, List.length_cons, ih]

/-- The pages of a row, up to the end of the address space. -/
theorem mem_pageRun (h : dest.toNat + 4096 * n ≤ 2 ^ 32) :
    a ∈ pageRun dest n ↔ ∃ i < n, a.toNat = dest.toNat + 4096 * i := by
  induction n generalizing dest with
  | zero => simp [pageRun]
  | succ n ih =>
      rw [pageRun, List.mem_cons]
      rcases Nat.eq_zero_or_pos n with rfl | hpos
      · rw [pageRun, ← BitVec.toNat_inj]
        constructor
        · rintro (ha | ha)
          · exact ⟨0, by omega, ha⟩
          · cases ha
        · rintro ⟨i, hi, ha⟩
          exact .inl (by omega)
      · have hnext : (dest + 4096).toNat = dest.toNat + 4096 := by
          rw [BitVec.toNat_add]
          show (dest.toNat + 4096) % 2 ^ 32 = _
          omega
        rw [ih (by omega), hnext, ← BitVec.toNat_inj]
        constructor
        · rintro (ha | ⟨i, hi, ha⟩)
          · exact ⟨0, by omega, ha⟩
          · exact ⟨i + 1, by omega, by omega⟩
        · rintro ⟨i, hi, ha⟩
          rcases Nat.eq_zero_or_pos i with rfl | hi0
          · exact .inl ha
          · exact .inr ⟨i - 1, by omega, by omega⟩

/-- The pages of a row are different. -/
theorem nodup_pageRun (h : dest.toNat + 4096 * n ≤ 2 ^ 32) : ((pageRun dest n).map slot).Nodup := by
  induction n generalizing dest with
  | zero => exact List.nodup_nil
  | succ n ih =>
      rw [pageRun, List.map_cons, List.nodup_cons]
      rcases Nat.eq_zero_or_pos n with rfl | hpos
      · exact ⟨List.not_mem_nil, List.nodup_nil⟩
      · have hnext : (dest + 4096).toNat = dest.toNat + 4096 := by
          rw [BitVec.toNat_add]
          show (dest.toNat + 4096) % 2 ^ 32 = _
          omega
        refine ⟨?_, ih (by omega)⟩
        intro hmem
        obtain ⟨a, ha, hslot⟩ := List.mem_map.mp hmem
        obtain ⟨i, hi, hval⟩ := (mem_pageRun (by omega)).mp ha
        rw [slot_eq_iff] at hslot
        omega

end

/-! ### Mapping all pages of a list -/

section

variable {maps : List (BitVec 32 × BitVec 32)} {m : BitVec 10 × BitVec 10 → Option (BitVec 32)}
  {k : BitVec 10 × BitVec 10}

theorem mapAll_of_notMem (h : k ∉ maps.map fun p => slot p.1) : mapAll maps m k = m k := by
  induction maps generalizing m with
  | nil => rfl
  | cons p maps ih =>
      rw [List.map_cons, List.mem_cons, not_or] at h
      exact (ih h.2).trans (Function.update_of_ne h.1 ..)

theorem mapAll_of_mem {p : BitVec 32 × BitVec 32} (h : (maps.map fun p => slot p.1).Nodup) (hp : p ∈ maps) :
    mapAll maps m (slot p.1) = some p.2 := by
  induction maps generalizing m with
  | nil => cases hp
  | cons q maps ih =>
      rw [List.map_cons, List.nodup_cons] at h
      rcases List.mem_cons.mp hp with rfl | hp
      · exact (mapAll_of_notMem h.1).trans (Function.update_self ..)
      · exact ih h.2 hp

end

/-- Map pages one after the other, up to an error. -/
def stepAll (step : BitVec 32 → PageState → Option (ℤ × PageState)) : List (BitVec 32) → PageState →
    Option (ℤ × PageState)
  | [], s => some (0, s)
  | a :: rest, s => (step a s).bind fun (ret, s) => if ret < 0 then some (-1, s) else stepAll step rest s

/-- The entry for a page. -/
def commonEnt (f : BitVec 20) : VmT := ⟨kernelAddr f, 4096, vmCOMMON⟩

/-- What some pages add: their frames `ps` and the frames `ts` of the new page tables, both written down. -/
structure PagesGain (flags : BitVec 32) (addrs : List (BitVec 32)) (ps ts : List (BitVec 20)) (g : Gain) : Prop where
  length : ps.length = addrs.length
  got : g.got.Perm (ps ++ ts)
  ents : g.ents.Perm (ps.map commonEnt ++ ts.map tableEnt)
  maps : g.maps = List.zipWith (fun a f => (a, frameAddr f ||| flags)) addrs ps
  tabs : g.tabs = ts

/-- The page tables that are missing for some pages. -/
def PageState.newTables (s : PageState) (addrs : List (BitVec 32)) : ℕ :=
  ((addrs.map pdeIndex).toFinset.filter fun i => ¬ s.as.Present i).card

/-- There are frames and entries for some pages and their page tables. -/
def PageState.Enough (s : PageState) (addrs : List (BitVec 32)) : Prop :=
  addrs.length + s.newTables addrs ≤ s.free.length ∧ addrs.length + s.newTables addrs ≤ s.vmFree

instance (s : PageState) (addrs : List (BitVec 32)) : Decidable (s.Enough addrs) := inferInstanceAs (Decidable (_ ∧ _))

/-- There are frames and entries for one page. -/
def PageState.EnoughOne (s : PageState) (a : BitVec 32) : Prop :=
  1 + s.need a ≤ s.free.length ∧ 1 + s.need a ≤ s.vmFree

/-- What a turn of a loop does with a page that is not mapped. -/
def PageStep (flags a : BitVec 32) (s : PageState) (run : Option (ℤ × PageState)) : Prop :=
  ∃ s' g p ts, run = some (0, s') ∧ Grows s g s' ∧ PagesGain flags [a] [p] ts g ∧
    ts.length = s.need a ∧ ∀ i, s'.as.Present i ↔ s.as.Present i ∨ i = pdeIndex a

section

variable {s s' : PageState} {flags a : BitVec 32} {addrs : List (BitVec 32)}
  {step : BitVec 32 → PageState → Option (ℤ × PageState)}

/-- A page needs a page table, or the pages before it have made it. -/
theorem newTables_cons (hpresent : ∀ i, s'.as.Present i ↔ s.as.Present i ∨ i = pdeIndex a) :
    s.newTables (a :: addrs) = s.need a + s'.newTables addrs := by
  unfold PageState.newTables PageState.need
  rw [List.map_cons, List.toFinset_cons]
  by_cases ha : s.as.Present (pdeIndex a)
  · have hsame : ∀ i, s'.as.Present i ↔ s.as.Present i := by
      intro i
      rw [hpresent, or_iff_left_iff_imp]
      rintro rfl
      exact ha
    rw [if_pos ha, zero_add, Finset.filter_insert, if_neg (not_not.mpr ha)]
    simp only [hsame]
  · have hrest : ((addrs.map pdeIndex).toFinset.filter fun i => ¬ s'.as.Present i) =
        ((addrs.map pdeIndex).toFinset.filter fun i => ¬ s.as.Present i).erase (pdeIndex a) := by
      ext i
      simp only [Finset.mem_filter, Finset.mem_erase, hpresent, not_or]
      tauto
    rw [if_neg ha, Finset.filter_insert, if_pos ha, hrest, add_comm, ← Finset.card_erase_add_one
      (Finset.mem_insert_self (pdeIndex a) _), Finset.erase_insert_eq_erase]

/-- The pages behind the first one. -/
theorem enough_cons {g : Gain} {p : BitVec 20} {ts : List (BitVec 20)} (hgrow : Grows s g s')
    (hgain : PagesGain flags [a] [p] ts g) (hlen : ts.length = s.need a)
    (hpresent : ∀ i, s'.as.Present i ↔ s.as.Present i ∨ i = pdeIndex a) :
    s.Enough (a :: addrs) ↔ s'.Enough addrs ∧ s.EnoughOne a := by
  have hfree := hgrow.perm.length_eq
  have hgot := hgain.got.length_eq
  have hvm := hgrow.vmFree
  have hents := hgain.ents.length_eq
  rw [List.length_append] at hfree hgot hents
  rw [List.length_map, List.length_map] at hents
  rw [List.length_singleton] at hgot hents
  unfold PageState.Enough PageState.EnoughOne
  rw [newTables_cons hpresent, List.length_cons]
  omega

theorem PagesGain.append {g₁ g₂ : Gain} {p : BitVec 20} {ps ts₁ ts₂ : List (BitVec 20)}
    (h₁ : PagesGain flags [a] [p] ts₁ g₁) (h₂ : PagesGain flags addrs ps ts₂ g₂) :
    PagesGain flags (a :: addrs) (p :: ps) (ts₁ ++ ts₂) (g₁.append g₂) where
  length := congrArg (· + 1) h₂.length
  got := by
    have hperm := h₁.got.append h₂.got
    refine hperm.trans ?_
    simp only [List.cons_append, List.nil_append, List.perm_cons]
    rw [← List.append_assoc, ← List.append_assoc]
    exact List.perm_append_comm.append_right _
  ents := by
    have hperm := h₁.ents.append h₂.ents
    refine hperm.trans ?_
    simp only [List.map_cons, List.map_nil, List.map_append, List.cons_append, List.nil_append, List.perm_cons]
    rw [← List.append_assoc, ← List.append_assoc]
    exact List.perm_append_comm.append_right _
  maps := by
    show g₁.maps ++ g₂.maps = _
    rw [h₁.maps, h₂.maps]
    rfl
  tabs := by rw [← h₁.tabs, ← h₂.tabs]; rfl

theorem PagesGain.not_slot {g : Gain} {p : BitVec 20} {ts : List (BitVec 20)} (h : PagesGain flags [a] [p] ts g)
    {b : BitVec 32} (hne : slot b ≠ slot a) : slot b ∉ g.maps.map fun p => slot p.1 := by
  rw [h.maps]
  simpa using hne

theorem PageState.Enough.one (h : s.Enough (a :: addrs)) : s.EnoughOne a := by
  have hneed : s.need a ≤ s.newTables (a :: addrs) := by
    unfold PageState.need PageState.newTables
    split_ifs with ha
    · exact Nat.zero_le _
    · refine Finset.card_pos.mpr ⟨pdeIndex a, Finset.mem_filter.mpr ⟨?_, ha⟩⟩
      rw [List.map_cons, List.toFinset_cons]
      exact Finset.mem_insert_self ..
  unfold PageState.Enough at h
  rw [List.length_cons] at h
  constructor
  · omega
  · omega

/-- The first page is mapped, and the others are still not. -/
theorem PageStep.rest {run : Option (ℤ × PageState)} (h : PageStep flags a s run)
    (hmap : ∀ b ∈ a :: addrs, s.Unmapped b) (hnodup : ((a :: addrs).map slot).Nodup) :
    ∃ s' g p ts, run = some (0, s') ∧ Grows s g s' ∧ PagesGain flags [a] [p] ts g ∧
      (s.Enough (a :: addrs) ↔ s'.Enough addrs ∧ s.EnoughOne a) ∧ (∀ b ∈ addrs, s'.Unmapped b) ∧
      (addrs.map slot).Nodup := by
  obtain ⟨s', g, p, ts, hrun, hgrow, hgain, hlen, hpresent⟩ := h
  rw [List.map_cons, List.nodup_cons] at hnodup
  refine ⟨s', g, p, ts, hrun, hgrow, hgain, enough_cons hgrow hgain hlen hpresent, ?_, hnodup.2⟩
  intro b hb
  have hne : slot b ≠ slot a := fun heq => hnodup.1 (heq ▸ List.mem_map_of_mem hb)
  show s'.as.mapping (slot b) = none
  rw [hgrow.mapping, mapAll_of_notMem (hgain.not_slot hne)]
  exact hmap b (List.mem_cons_of_mem a hb)

/-- **Pages are mapped one after the other**, as long as there are frames and entries. -/
theorem stepAll_grows (hstep : ∀ s a, s.Ok → s.Unmapped a → s.EnoughOne a → PageStep flags a s (step a s))
    (hs : s.Ok) (hmap : ∀ a ∈ addrs, s.Unmapped a) (hnodup : (addrs.map slot).Nodup) (henough : s.Enough addrs) :
    ∃ s' g ps ts, stepAll step addrs s = some (0, s') ∧ Grows s g s' ∧ PagesGain flags addrs ps ts g := by
  induction addrs generalizing s with
  | nil =>
      exact ⟨s, ⟨[], [], [], [], []⟩, [], [], rfl, Grows.refl hs, rfl, List.Perm.refl _, List.Perm.refl _, rfl, rfl⟩
  | cons a addrs ih =>
      have hone := hstep s a hs (hmap a List.mem_cons_self) henough.one
      obtain ⟨s₁, g₁, p, ts₁, hrun, hgrow, hgain, hiff, hmap₁, hnodup₁⟩ := hone.rest hmap hnodup
      obtain ⟨s₂, g₂, ps, ts₂, hrun₂, hgrow₂, hgain₂⟩ := ih hgrow.ok hmap₁ hnodup₁ (hiff.mp henough).1
      refine ⟨s₂, g₁.append g₂, p :: ps, ts₁ ++ ts₂, ?_, hgrow.trans hs hgrow₂, hgain.append hgain₂⟩
      rw [stepAll, hrun]
      exact hrun₂

/-- The loop does not come back if there are too few. -/
theorem stepAll_of_few (hstep : ∀ s a, s.Ok → s.Unmapped a → s.EnoughOne a → PageStep flags a s (step a s))
    (hstop : ∀ s a, s.Ok → s.Unmapped a → ¬ s.EnoughOne a → step a s = none)
    (hs : s.Ok) (hmap : ∀ a ∈ addrs, s.Unmapped a) (hnodup : (addrs.map slot).Nodup) (hfew : ¬ s.Enough addrs) :
    stepAll step addrs s = none := by
  induction addrs generalizing s with
  | nil => exact absurd ⟨Nat.zero_le _, Nat.zero_le _⟩ hfew
  | cons a addrs ih =>
      have ha := hmap a List.mem_cons_self
      rw [stepAll]
      by_cases hone : s.EnoughOne a
      · obtain ⟨s₁, g₁, p, ts₁, hrun, hgrow, hgain, hiff, hmap₁, hnodup₁⟩ := (hstep s a hs ha hone).rest hmap hnodup
        rw [hrun]
        exact ih hgrow.ok hmap₁ hnodup₁ fun hrest => hfew (hiff.mpr ⟨hrest, hone⟩)
      · rw [hstop s a hs ha hone]
        rfl

/-! ### The loop of `map_pages` -/

theorem mapPagesLoop_eq (flag dest : BitVec 32) (n : ℕ) (s : PageState) :
    mapPagesLoop flag n dest s = stepAll (mapPagesStep flag) (pageRun dest n) s := by
  induction n generalizing dest s with
  | zero => rfl
  | succ n ih =>
      rw [mapPagesLoop, pageRun, stepAll]
      simp only [ih]

theorem Grows.need_eq {g : Gain} (h : Grows s g s') (hdirs : g.dirs = []) (a : BitVec 32) : s'.need a = s.need a := by
  have hiff := h.present (pdeIndex a)
  rw [hdirs, or_iff_left List.not_mem_nil] at hiff
  unfold PageState.need
  exact if_congr hiff rfl rfl

theorem Grows.unmapped {g : Gain} (h : Grows s g s') (hmaps : g.maps = []) (hmap : s.Unmapped a) : s'.Unmapped a := by
  show s'.as.mapping (slot a) = none
  rw [h.mapping, hmaps]
  exact hmap

/-- A page table is new, or it was there. -/
theorem present_tableGain {t : Option (BitVec 20)} (hlen : t.toList.length = s.need a) (i : BitVec 10) :
    s.as.Present i ∨ i ∈ (tableGain a t).dirs ↔ s.as.Present i ∨ i = pdeIndex a := by
  cases t with
  | none =>
      have ha : s.as.Present (pdeIndex a) := by
        by_contra ha
        rw [PageState.need, if_neg ha] at hlen
        cases hlen
      simp only [tableGain, Option.toList_none, List.map_nil, List.not_mem_nil, or_false]
      refine ⟨.inl, ?_⟩
      rintro (hi | rfl)
      · exact hi
      · exact ha
  | some f => simp only [tableGain, Option.toList_some, List.map_cons, List.map_nil, List.mem_singleton]

/-- A turn of the loop maps a page, if there are enough frames and entries. -/
theorem mapPagesStep_grows (hflags : PageFlags flags) (hs : s.Ok) (hmap : s.Unmapped a) (henough : s.EnoughOne a) :
    PageStep flags a s (mapPagesStep flags a s) := by
  obtain ⟨hfree, hvm⟩ := henough
  obtain ⟨f, rest, hcons⟩ := List.exists_cons_of_length_pos (show 0 < s.free.length by omega)
  have hlow := kernelAddr_ne_zero (hs.low f (hcons ▸ List.mem_cons_self))
  -- the page is taken, then written down, then mapped
  obtain ⟨hpage, hgrow₀⟩ := getZeroPage_grows hs hcons
  have hvm₀ := hgrow₀.vmFree
  have hfree₀ := hgrow₀.perm.length_eq
  obtain ⟨s₁, hins, hgrow₁⟩ := vmInsert_grows hgrow₀.ok 4096 vmCOMMON hlow
    (show 0 < _ by rw [List.length_nil] at hvm₀; omega)
  have hvm₁ := hgrow₁.vmFree
  have hfree₁ := hgrow₁.perm.length_eq
  have hneed : s₁.need a = s.need a := (hgrow₁.need_eq rfl a).trans (hgrow₀.need_eq rfl a)
  simp only [List.length_append, List.length_cons, List.length_nil] at hvm₀ hfree₀ hvm₁ hfree₁
  obtain ⟨s₂, t, hrun, hgrow₂, hlen⟩ := mapPage_grows hgrow₁.ok hflags
    (hgrow₁.unmapped rfl (hgrow₀.unmapped rfl hmap)) (by omega) (by omega) f
  refine ⟨s₂, _, f, t.toList, ?_, hgrow₀.trans hs (hgrow₁.trans hgrow₀.ok hgrow₂), ?_, hlen.trans hneed, ?_⟩
  · rw [mapPagesStep, hpage]
    simp only [hlow, if_false, hins, Option.bind_some]
    rw [show pa (kernelAddr f) = frameAddr f from pa_va]
    exact hrun
  · refine ⟨rfl, ?_, ?_, rfl, ?_⟩
    · simp [Gain.append, tableGain]
    · simp [Gain.append, tableGain, commonEnt]
    · simp [Gain.append, tableGain]
  · intro i
    rw [hgrow₂.present]
    have hdirs : i ∈ ((tableGain a t).append ⟨[], [], [(a, frameAddr f ||| flags)], [], []⟩).dirs ↔
        i ∈ (tableGain a t).dirs := by simp [Gain.append]
    rw [hdirs, present_tableGain hlen, hgrow₁.present, hgrow₀.present]
    simp only [List.not_mem_nil, or_false]

/-- It does not come back if there are too few. -/
theorem mapPagesStep_of_few (hflags : PageFlags flags) (hs : s.Ok) (hfew : ¬ s.EnoughOne a) :
    mapPagesStep flags a s = none := by
  cases hfree : s.free with
  | nil =>
      rw [mapPagesStep, getZeroPage, hfree]
      rfl
  | cons f rest =>
      have hlow := kernelAddr_ne_zero (hs.low f (hfree ▸ List.mem_cons_self))
      obtain ⟨hpage, hgrow₀⟩ := getZeroPage_grows hs hfree
      have hvm₀ := hgrow₀.vmFree
      have hfree₀ := hgrow₀.perm.length_eq
      rw [mapPagesStep, hpage]
      simp only [hlow, if_false]
      by_cases hvm : 0 < (getZeroPage s).2.vmFree
      · obtain ⟨s₁, hins, hgrow₁⟩ := vmInsert_grows hgrow₀.ok 4096 vmCOMMON hlow hvm
        have hvm₁ := hgrow₁.vmFree
        have hfree₁ := hgrow₁.perm.length_eq
        have hneed : s₁.need a = s.need a := (hgrow₁.need_eq rfl a).trans (hgrow₀.need_eq rfl a)
        simp only [List.length_append, List.length_cons, List.length_nil] at hvm₀ hfree₀ hvm₁ hfree₁
        rw [hins, Option.bind_some]
        refine mapPage_of_few hflags hgrow₁.ok ?_
        rw [PageState.EnoughOne, not_and_or] at hfew
        omega
      · rw [vmInsert_of_full (Nat.eq_zero_of_not_pos hvm)]
        rfl

end

/-! ## What it should do -/

/-- A page holds a byte of a range. -/
def Touches (addr size : BitVec 32) (k : BitVec 10 × BitVec 10) : Prop :=
  ∃ a : BitVec 32, addr.toNat ≤ a.toNat ∧ a.toNat < addr.toNat + size.toNat ∧ slot a = k

/-- Just the pages of a range are mapped, each to a page of its own. -/
structure MapsRight (addr size : BitVec 32) (s s' : PageState) : Prop where
  /-- The page is fresh and zero, and written down once. -/
  mapped : ∀ k, Touches addr size k → ∃ x, s'.as.mapping k = some x ∧ frame x ∈ s.free ∧
    (s'.as.table (frame x) = fun _ => 0) ∧ commonEnt (frame x) ∈ s'.vmPage ∧
    s'.vmPage.countP (·.base = kernelAddr (frame x)) = s.vmPage.countP (·.base = kernelAddr (frame x)) + 1
  distinct : ∀ k k' x x', Touches addr size k → Touches addr size k' → s'.as.mapping k = some x →
    s'.as.mapping k' = some x' → frame x = frame x' → k = k'
  others : ∀ k, ¬ Touches addr size k → s'.as.mapping k = s.as.mapping k

/-- The pages of a range. -/
def pagesOf (addr size : BitVec 32) : List (BitVec 32) :=
  pageRun (addr &&& ~~~4095#32) ((addr.toNat % 4096 + size.toNat + 4095) / 4096)

/-- There is a rest of the size, or the range starts on a page; and there are enough frames and entries. -/
def MapOk (addr size : BitVec 32) (s : PageState) : Prop :=
  (size.toNat % 4096 ≠ 0 ∨ addr.toNat % 4096 = 0) ∧ s.Enough (pagesOf addr size)

instance (addr size : BitVec 32) (s : PageState) : Decidable (MapOk addr size s) := inferInstanceAs (Decidable (_ ∧ _))

/-! ## The pages of a gain -/

section

variable {s s' : PageState} {flags : BitVec 32} {addrs : List (BitVec 32)} {ps ts : List (BitVec 20)} {g : Gain}

theorem PagesGain.slots (h : PagesGain flags addrs ps ts g) : (g.maps.map fun p => slot p.1) = addrs.map slot := by
  rw [h.maps]
  refine List.ext_getElem ?_ ?_
  · simp [h.length]
  · intro i _ _
    simp

/-- Each page is mapped to its own frame. -/
theorem PagesGain.mapping (h : PagesGain flags addrs ps ts g) (hgrow : Grows s g s') (hnodup : (addrs.map slot).Nodup)
    {i : ℕ} {a : BitVec 32} {f : BitVec 20} (ha : addrs[i]? = some a) (hf : ps[i]? = some f) :
    s'.as.mapping (slot a) = some (frameAddr f ||| flags) := by
  have hmem : (a, frameAddr f ||| flags) ∈ g.maps := by
    rw [h.maps]
    refine List.mem_iff_getElem?.mpr ⟨i, ?_⟩
    rw [List.getElem?_zipWith, ha, hf]
  rw [hgrow.mapping]
  exact mapAll_of_mem (p := (a, frameAddr f ||| flags)) (h.slots ▸ hnodup) hmem

/-- The other pages are mapped as before. -/
theorem PagesGain.others (h : PagesGain flags addrs ps ts g) (hgrow : Grows s g s') {k : BitVec 10 × BitVec 10}
    (hk : k ∉ addrs.map slot) : s'.as.mapping k = s.as.mapping k := by
  rw [hgrow.mapping]
  exact mapAll_of_notMem (h.slots ▸ hk)

/-- The frames of the pages and of the page tables are different, and come from the free ones. -/
theorem PagesGain.frames (h : PagesGain flags addrs ps ts g) (hgrow : Grows s g s') (hs : s.Ok) :
    (ps ++ ts).Nodup ∧ ∀ f ∈ ps ++ ts, f ∈ s.free := by
  have hperm := (h.got.symm.append_right s'.free).trans hgrow.perm
  have hnodup := hperm.nodup_iff.mpr hs.nodup
  exact ⟨(List.nodup_append'.mp hnodup).1, fun f hf => hperm.subset (List.mem_append_left _ hf)⟩

/-- A page is zero. -/
theorem PagesGain.zeroed (h : PagesGain flags addrs ps ts g) (hgrow : Grows s g s') (hs : s.Ok) {f : BitVec 20}
    (hf : f ∈ ps) : s'.as.table f = fun _ => 0 := by
  obtain ⟨hnodup, hfree⟩ := h.frames hgrow hs
  refine hgrow.zeroed f (h.got.symm.subset (List.mem_append_left _ hf)) ?_
  intro htable
  rcases hgrow.tables f htable with hold | hnew
  · exact hs.not_isTable (hfree f (List.mem_append_left _ hf)) hold
  · exact (List.nodup_append'.mp hnodup).2.2 hf (h.tabs ▸ hnew)

/-- A page is written down once. -/
theorem PagesGain.recorded (h : PagesGain flags addrs ps ts g) (hgrow : Grows s g s') (hs : s.Ok) {f : BitVec 20}
    (hf : f ∈ ps) : commonEnt f ∈ s'.vmPage ∧
      s'.vmPage.countP (·.base = kernelAddr f) = s.vmPage.countP (·.base = kernelAddr f) + 1 := by
  obtain ⟨hnodup, hfree⟩ := h.frames hgrow hs
  have hne := kernelAddr_ne_zero (hs.low f (hfree f (List.mem_append_left _ hf)))
  have hused := hgrow.used.trans (h.ents.append_right _)
  constructor
  · have hmem := hused.symm.subset (List.mem_append_left _ (List.mem_append_left _ (List.mem_map_of_mem hf)))
    exact (List.mem_filter.mp hmem).1
  · have hcount : ∀ vm : List VmT, (vm.filter (·.base ≠ 0)).countP (·.base = kernelAddr f) =
        vm.countP (·.base = kernelAddr f) := by
      intro vm
      rw [List.countP_filter]
      refine List.countP_congr fun e _ => ?_
      simp only [Bool.and_eq_true, decide_eq_true_eq, and_iff_left_iff_imp]
      intro he
      simpa [he] using hne
    have hbases : ∀ (ent : BitVec 20 → VmT) (qs : List (BitVec 20)), (∀ q, (ent q).base = kernelAddr q) →
        (qs.map ent).countP (·.base = kernelAddr f) = qs.count f := by
      intro ent qs hent
      rw [List.countP_map, List.count_eq_countP]
      refine List.countP_congr fun q _ => ?_
      simp only [Function.comp_apply, hent, kernelAddr_injective.eq_iff, decide_eq_true_eq, beq_iff_eq]
    rw [← hcount, hused.countP_eq, List.countP_append, hcount, List.countP_append,
      hbases commonEnt ps fun _ => rfl, hbases tableEnt ts fun _ => rfl, ← List.count_append, List.count_eq_one_of_mem hnodup (List.mem_append_left _ hf),
      add_comm]

end

/-! ## The number of pages -/

section

variable {addr size : BitVec 32}

theorem toNat_pageBase (addr : BitVec 32) : (addr &&& ~~~4095#32).toNat = addr.toNat / 4096 * 4096 := by
  rw [show ~~~4095#32 = (0xFFFFF000 : BitVec 32) from by decide, and_page_mask, toNat_frameAddr, toNat_frame]

theorem toNat_pageAlign_shift (size : BitVec 32) :
    (pageAlign size >>> 12).toNat = (size.toNat + 4095) % 2 ^ 32 / 4096 := by
  rw [BitVec.toNat_ushiftRight, pageAlign, toNat_pageBase, BitVec.toNat_add, Nat.shiftRight_eq_div_pow]
  show (size.toNat + 4095) % 2 ^ 32 / 4096 * 4096 / 4096 = _
  exact Nat.mul_div_cancel _ (by decide)

theorem toNat_nrPages (addr size : BitVec 32) :
    (nrPages addr size).toNat = (size.toNat + 4095) % 2 ^ 32 / 4096 +
      if addr.toNat % 4096 + size.toNat % 4096 > 4096 then 1 else 0 := by
  have hoff : (addr &&& 0xFFF).toNat = addr.toNat % 4096 := by
    rw [BitVec.toNat_and]
    exact Nat.and_two_pow_sub_one_eq_mod addr.toNat 12
  have hrest : (size % 4096).toNat = size.toNat % 4096 := BitVec.toNat_umod
  have hgt : (addr &&& 0xFFF) + size % 4096 > 4096 ↔ addr.toNat % 4096 + size.toNat % 4096 > 4096 := by
    rw [gt_iff_lt, BitVec.lt_def, BitVec.toNat_add, hoff, hrest]
    show 4096 < _ ↔ _
    omega
  unfold nrPages
  simp only [hgt]
  split_ifs
  · rw [BitVec.toNat_add, toNat_pageAlign_shift]
    show (_ + 1) % 2 ^ 32 = _
    omega
  · exact toNat_pageAlign_shift size

/-- The pages of a range are counted right, if the size has a rest or the range starts on a page. -/
theorem nrPages_eq_iff (hlt : size.toNat + 4095 < 2 ^ 32) :
    (nrPages addr size).toNat = (addr.toNat % 4096 + size.toNat + 4095) / 4096 ↔
      (size.toNat % 4096 ≠ 0 ∨ addr.toNat % 4096 = 0) := by
  rw [toNat_nrPages, Nat.mod_eq_of_lt hlt]
  split_ifs <;> omega

/-- And never too many are counted. -/
theorem nrPages_le (addr size : BitVec 32) :
    (nrPages addr size).toNat ≤ (addr.toNat % 4096 + size.toNat + 4095) / 4096 := by
  rw [toNat_nrPages]
  split_ifs <;> omega

/-- The pages that hold a byte of a range. -/
theorem touches_iff (hsize : 0 < size.toNat) (hend : addr.toNat + size.toNat ≤ 2 ^ 32) {k : BitVec 10 × BitVec 10} :
    Touches addr size k ↔ k ∈ (pagesOf addr size).map slot := by
  have hbase := toNat_pageBase addr
  rw [List.mem_map]
  constructor
  · rintro ⟨a, hge, hlt, rfl⟩
    have hpage := toNat_pageBase a
    refine ⟨a &&& ~~~4095#32, (mem_pageRun (by omega)).mpr ⟨a.toNat / 4096 - addr.toNat / 4096, ?_, ?_⟩, ?_⟩
    · omega
    · omega
    · rw [slot_eq_iff]
      omega
  · rintro ⟨a, ha, rfl⟩
    obtain ⟨i, hi, hval⟩ := (mem_pageRun (by omega)).mp ha
    rcases Nat.eq_zero_or_pos i with rfl | hpos
    · exact ⟨addr, le_rfl, by omega, slot_eq_iff.mpr (by omega)⟩
    · exact ⟨a, by omega, by omega, rfl⟩

theorem nodup_pagesOf (hend : addr.toNat + size.toNat ≤ 2 ^ 32) : ((pagesOf addr size).map slot).Nodup := by
  have hbase := toNat_pageBase addr
  exact nodup_pageRun (by omega)

end

/-! ## When it does -/

section

variable {addr size flag : BitVec 32} {s : PageState}

/-- The flags of the pages. -/
theorem pageFlags_of_flag (addr : BitVec 32) (hlow : frame flag = 0) (hpse : flag.getLsbD pgBitPse = false) :
    PageFlags (if addr < pageOffset then flag ||| pagePRE ||| pageUSR else flag ||| pagePRE) := by
  have hpre : PageFlags (flag ||| pagePRE) := by
    refine ⟨?_, ?_, ?_⟩
    · rw [frame_or, hlow]
      decide
    · rw [BitVec.getLsbD_or, show pagePRE.getLsbD pgBitPresent = true from by decide, Bool.or_true]
    · rw [BitVec.getLsbD_or, hpse]
      decide
  split_ifs
  · refine ⟨?_, ?_, ?_⟩
    · rw [frame_or, hpre.low]
      decide
    · rw [BitVec.getLsbD_or, hpre.present, Bool.true_or]
    · rw [BitVec.getLsbD_or, hpre.small]
      decide
  · exact hpre

/-- A process, and a range that is not mapped in it. The flags are some of those below `PAGE_PSE`. -/
structure MapInput (addr size flag : BitVec 32) (s : PageState) : Prop where
  ok : s.Ok
  pos : 0 < size.toNat
  fits : addr.toNat + size.toNat ≤ 2 ^ 32
  unmapped : ∀ k, Touches addr size k → s.as.mapping k = none
  low : frame flag = 0
  small : flag.getLsbD pgBitPse = false

/-- Enough frames and entries for all pages are never needed for more than the table of entries. -/
theorem MapInput.lt_of_enough (h : MapInput addr size flag s) (henough : s.Enough (pagesOf addr size)) :
    size.toNat + 4095 < 2 ^ 32 := by
  have hvm : s.vmFree ≤ 341 := h.ok.vmMax ▸ List.countP_le_length
  have hlen := henough.2
  rw [pagesOf, length_pageRun] at hlen
  omega

/-- What `map_pages` does with as many pages as it counts. -/
theorem MapInput.run (h : MapInput addr size flag s) :
    let counted := pageRun (addr &&& ~~~4095#32) (nrPages addr size).toNat
    (s.Enough counted → ∃ flags s' g ps ts, mapPages addr size flag s = some (0, s') ∧ PageFlags flags ∧
        Grows s g s' ∧ PagesGain flags counted ps ts g) ∧
      (¬ s.Enough counted → mapPages addr size flag s = none) := by
  intro counted
  have hflags := pageFlags_of_flag addr h.low h.small
  have hbase := toNat_pageBase addr
  have hle := nrPages_le addr size
  have hfits := h.fits
  have hnodup : (counted.map slot).Nodup := nodup_pageRun (by omega)
  have hmap : ∀ a ∈ counted, s.Unmapped a := by
    intro a ha
    obtain ⟨i, hi, hval⟩ := (mem_pageRun (by omega)).mp ha
    refine h.unmapped _ ((touches_iff h.pos hfits).mpr (List.mem_map_of_mem ?_))
    exact (mem_pageRun (by omega)).mpr ⟨i, by omega, hval⟩
  unfold mapPages
  simp only [mapPagesLoop_eq]
  constructor
  · intro henough
    obtain ⟨s', g, ps, ts, hrun, hgrow, hgain⟩ := stepAll_grows
      (fun s a => mapPagesStep_grows hflags (s := s) (a := a)) h.ok hmap hnodup henough
    exact ⟨_, s', g, ps, ts, hrun, hflags, hgrow, hgain⟩
  · intro hfew
    exact stepAll_of_few (fun s a => mapPagesStep_grows hflags (s := s) (a := a))
      (fun s a hs _ hone => mapPagesStep_of_few hflags hs hone) h.ok hmap hnodup hfew

/-- The page behind those that are counted is in the range, if there are more. -/
theorem MapInput.left_out (h : MapInput addr size flag s) {n : ℕ}
    (hn : n < (addr.toNat % 4096 + size.toNat + 4095) / 4096) :
    ∃ k, Touches addr size k ∧ k ∉ (pageRun (addr &&& ~~~4095#32) n).map slot := by
  have hbase := toNat_pageBase addr
  have hfits := h.fits
  have hval : (BitVec.ofNat 32 (addr.toNat / 4096 * 4096 + 4096 * n)).toNat = addr.toNat / 4096 * 4096 + 4096 * n := by
    rw [BitVec.toNat_ofNat, Nat.mod_eq_of_lt (by omega)]
  refine ⟨slot (BitVec.ofNat 32 (addr.toNat / 4096 * 4096 + 4096 * n)), ?_, ?_⟩
  · refine (touches_iff h.pos hfits).mpr (List.mem_map_of_mem ((mem_pageRun (by omega)).mpr ⟨n, hn, ?_⟩))
    rw [hval, hbase]
  · intro hmem
    obtain ⟨a, ha, hslot⟩ := List.mem_map.mp hmem
    obtain ⟨i, hi, ha⟩ := (mem_pageRun (by omega)).mp ha
    rw [slot_eq_iff, hval] at hslot
    omega

/-- The pages of the range are mapped as they should be. -/
theorem PagesGain.right {s' : PageState} {flags : BitVec 32} {ps ts : List (BitVec 20)} {g : Gain}
    (hgain : PagesGain flags (pagesOf addr size) ps ts g) (hgrow : Grows s g s') (hflags : PageFlags flags)
    (h : MapInput addr size flag s) : MapsRight addr size s s' := by
  have hnodup := nodup_pagesOf h.fits
  obtain ⟨hframes, hfree⟩ := hgain.frames hgrow h.ok
  -- a page of the range has an index, and a frame with this index
  have hpage : ∀ k, Touches addr size k → ∃ (i : ℕ) (a : BitVec 32) (f : BitVec 20),
      (pagesOf addr size)[i]? = some a ∧ ps[i]? = some f ∧ slot a = k := by
    intro k hk
    obtain ⟨a, ha, hslot⟩ := List.mem_map.mp ((touches_iff h.pos h.fits).mp hk)
    obtain ⟨i, hi⟩ := List.mem_iff_getElem?.mp ha
    have hlt : i < ps.length := by
      rw [hgain.length]
      exact (List.getElem?_eq_some_iff.mp hi).1
    exact ⟨i, a, ps[i], hi, List.getElem?_eq_getElem hlt, hslot⟩
  refine ⟨?_, ?_, ?_⟩
  · intro k hk
    obtain ⟨i, a, f, ha, hf, rfl⟩ := hpage k hk
    have hmem := List.mem_of_getElem? hf
    refine ⟨_, hgain.mapping hgrow hnodup ha hf, ?_⟩
    rw [hflags.frame_entry]
    exact ⟨hfree f (List.mem_append_left _ hmem), hgain.zeroed hgrow h.ok hmem, hgain.recorded hgrow h.ok hmem⟩
  · intro k k' x x' hk hk' hx hx' heq
    obtain ⟨i, a, f, ha, hf, rfl⟩ := hpage k hk
    obtain ⟨j, b, q, hb, hq, rfl⟩ := hpage k' hk'
    rw [hgain.mapping hgrow hnodup ha hf] at hx
    rw [hgain.mapping hgrow hnodup hb hq] at hx'
    obtain rfl := Option.some.inj hx
    obtain rfl := Option.some.inj hx'
    rw [hflags.frame_entry, hflags.frame_entry] at heq
    subst heq
    have hlt := (List.getElem?_eq_some_iff.mp hf).1
    obtain rfl := (List.getElem?_inj hlt (List.nodup_append'.mp hframes).1).mp (hf.trans hq.symm)
    rw [Option.some.inj (ha.symm.trans hb)]
  · intro k hk
    exact hgain.others hgrow (mt (touches_iff h.pos h.fits).mpr hk)

end

/-! ## A process with nothing mapped -/

/-- `mm.vm_page` with no entry used. -/
def emptyTable : List VmT := List.replicate 341 ⟨0, 0, 0⟩

/-- Nothing is mapped, and there are eight frames. -/
def emptyProc : PageState where
  as := { pgd := fun _ => 0, table := fun _ _ => 0 }
  vmPage := emptyTable
  free := [1, 2, 3, 4, 5, 6, 7, 8]

theorem emptyProc_absent (i : BitVec 10) : (emptyProc.as.pgd i).getLsbD pgBitPresent = false := by
  rw [show emptyProc.as.pgd i = 0 from rfl]
  decide

theorem length_emptyTable : emptyTable.length = 341 := List.length_replicate ..

theorem emptyProc_ok : emptyProc.Ok := by
  have hno : ∀ i, ¬ emptyProc.as.HasTable i := by
    rintro i ⟨hpresent, -⟩
    rw [emptyProc_absent] at hpresent
    cases hpresent
  have hnodup : ([1, 2, 3, 4, 5, 6, 7, 8] : List (BitVec 20)).Nodup := by decide
  have hlow : ([1, 2, 3, 4, 5, 6, 7, 8] : List (BitVec 20)).all (· < 0x40000) = true := by decide
  exact {
    nodup := hnodup
    low := fun f hf => of_decide_eq_true (List.all_eq_true.mp hlow f hf)
    unused := fun i h => absurd h (hno i)
    apart := fun i _ h => absurd h (hno i)
    clear := fun i _ h => absurd h (hno i)
    vmMax := length_emptyTable }

theorem emptyProc_input {addr size : BitVec 32} (hpos : 0 < size.toNat) (hfits : addr.toNat + size.toNat ≤ 2 ^ 32) :
    MapInput addr size pageRW emptyProc where
  ok := emptyProc_ok
  pos := hpos
  fits := hfits
  unmapped k _ := if_pos (emptyProc_absent k.1)
  low := by decide
  small := by decide

end Shaunos.Mm
