import Shaunos.Fs.OpenFile

/-!
# What a new process inherits, and what a process closes at its end

Reference: `Kernel/kthread.c` (`kcreate_process`, `kclose_proc`).

Both loops run over the descriptors `0, …, open_files - 1`, so they see every descriptor in use exactly
when these are the ones in use.

* `inherits_iff` — the child gets the table of its parent, with one reference more for each entry;
* `closesAll_iff` — every open descriptor is closed once.
-/

namespace Shaunos.Fs

open Pid RefCount

/-- The child maps the same descriptors to the same files, and every file counts the references of
the child. The file that is executed is opened and closed on the way and is left out. -/
structure Inherits (p : Process) (exe : BitVec 32) (s s' : Sys) (child : Process) : Prop where
  table : ∀ fd : ℕ, fd < 1024 → child.file fd = p.file fd
  refs : ∀ fp, fp ≠ 0 → fp ≠ exe →
    s'.files.count fp ≡ s.files.count fp + (tableRefs p.toProc fp + cwdRefs p fp) [MOD 2 ^ 32]

/-- Every file loses the references of the process, one for each open descriptor. -/
def ClosesAll (p : Process) (h h' : Files) : Prop :=
  ∀ fp, h'.count fp + (tableRefs p.toProc fp + cwdRefs p fp) ≡ h.count fp [MOD 2 ^ 32]

/-- The id that the copied map hands out first is not the one of an open descriptor. -/
def SlotFree (im : Image) (p : Proc) : Prop :=
  ∀ id obj, getUnusedId (kidDup (freshProc im.beyond im.beyondMap).pFdObj p.pFdObj) = some (id, obj) →
    id < 1024 → p.file id = 0

/-- What `vfs_open` closes for libraries that it does not find is not an open file. -/
def NoStray (b : Binary) (exe : BitVec 32) : Prop :=
  ∀ fp, fp ≠ 0 → fp ≠ exe → b.noLibrary.count fp % 2 ^ 32 = 0

section

variable {s s' : Sys} {p child : Process} {p₀ p₁ : Proc} {im : Image} {b : Binary} {h h' : Files}
  {ppid pid : ℕ} {retval : ℤ} {fp : BitVec 32}

/-! ## The steps of `kcreate_process` -/

/-- `fd_detach` clears the entry. -/
theorem fdDetach_file (fd : ℕ) (p : Proc) :
    (fdDetach fd p).2.file = Function.update p.file (fd : ℤ) 0 := by
  unfold fdDetach
  rw [if_neg (by omega)]
  split
  · rename_i hzero
    exact (Function.update_eq_self_iff.mpr hzero.symm).symm
  · rfl

/-- After `fd_attach`, whether it succeeds or not, clearing the entry clears the old one. -/
theorem update_fdAttach_file (fd : ℕ) (p : Proc) (file : BitVec 32) :
    Function.update (fdAttach fd p file).2.file (fd : ℤ) 0 = Function.update p.file (fd : ℤ) 0 := by
  unfold fdAttach
  split_ifs
  · rfl
  · rfl
  · rfl
  · exact Function.update_idem ..

theorem fdAttach_pFdObj (fd : ℤ) (p : Proc) (file : BitVec 32) :
    (fdAttach fd p file).2.pFdObj = p.pFdObj := by
  unfold fdAttach
  split_ifs <;> rfl

theorem fdDetach_pFdObj (fd : ℤ) (p : Proc) : (fdDetach fd p).2.pFdObj = p.pFdObj := by
  unfold fdDetach
  split_ifs <;> rfl

/-- A binary that is loaded was opened, attached at an id of the process, and detached and closed
again. -/
theorem loadBinary_eq_some (hret : 0 ≤ retval)
    (hload : loadBinary b p₀ h = some (retval, p₁, h')) :
    ∃ (file : File) (fd : ℕ) (obj : KidObject), b.open_ = .opened file ∧
      getUnusedId p₀.pFdObj = some (fd, obj) ∧
      p₁.file = Function.update p₀.file fd 0 ∧ p₁.pFdObj = putId obj fd ∧
      h' = (b.noLibrary.foldl Heap.drop (h.open_ file.1)).drop file.1 := by
  obtain ⟨⟨r, h₁⟩, hopen, hrest⟩ := Option.bind_eq_some_iff.mp hload
  have hfail : ∀ {e : ℤ} {p : Proc} {g : Files}, e < 0 → ¬ some (e, p, g) = some (retval, p₁, h') := by
    intro e p g he heq
    obtain ⟨rfl, -⟩ := Prod.mk.inj (Option.some.inj heq)
    omega
  cases hb : b.open_ with
  | noPath e =>
      rw [hb] at hopen
      obtain ⟨rfl, rfl⟩ := Prod.mk.inj (Option.some.inj hopen)
      exact absurd hrest (hfail (by decide))
  | noFile e =>
      rw [hb] at hopen
      obtain ⟨rfl, rfl⟩ := Prod.mk.inj (Option.some.inj hopen)
      exact absurd hrest (hfail (by decide))
  | noPermission file =>
      rw [hb, vfsOpen] at hopen
      split at hopen
      · cases hopen
      · obtain ⟨rfl, rfl⟩ := Prod.mk.inj (Option.some.inj hopen)
        exact absurd hrest (hfail (by decide))
  | opened file =>
      rw [hb, vfsOpen] at hopen
      split at hopen
      · cases hopen
      obtain ⟨rfl, rfl⟩ := Prod.mk.inj (Option.some.inj hopen)
      simp only at hrest
      split at hrest
      · exact absurd hrest (hfail (by decide))
      obtain ⟨⟨fd, obj⟩, hid, hrest⟩ := Option.bind_eq_some_iff.mp hrest
      simp only [fget_eq, vfsClose_eq] at hrest
      by_cases hread : b.vfsRead < 0
      · simp only [hread, if_true] at hrest
        exact absurd hrest (hfail hread)
      · simp only [hread, if_false] at hrest
        obtain ⟨-, hrest⟩ := Prod.mk.inj (Option.some.inj hrest)
        obtain ⟨rfl, rfl⟩ := Prod.mk.inj hrest
        refine ⟨file, fd, obj, rfl, hid, ?_, ?_, rfl⟩
        · rw [fdDetach_file]
          simp only
          rw [update_fdAttach_file]
        · simp only [fdDetach_pFdObj, fdAttach_pFdObj]

/-- A process that is created with a parent: what is inherited, and what the loader does. -/
theorem kcreateProcess_eq_some (hp : s.sysProc ppid = some p)
    (hcreate : kcreateProcess (some ppid) im s = some ((pid : ℤ), s')) :
    ∃ child₀ h₀ proc h₁ retval, inherit im p s.files = some (child₀, h₀) ∧
      loadBinary im.binary child₀.toProc h₀ = some (retval, proc, h₁) ∧ 0 ≤ retval ∧
      s'.files = h₁ ∧ s'.sysProc pid = some { proc with pCurrCwd := child₀.pCurrCwd } := by
  obtain ⟨⟨pid', kpidObj⟩, -, hrest⟩ := Option.bind_eq_some_iff.mp hcreate
  simp only [hp, Option.bind_eq_bind, Option.bind_some] at hrest
  obtain ⟨⟨child₀, h₀⟩, hinherit, hrest⟩ := Option.bind_eq_some_iff.mp hrest
  simp only at hrest
  split at hrest
  · obtain ⟨hret, -⟩ := Prod.mk.inj (Option.some.inj hrest)
    omega
  obtain ⟨⟨retval, proc, h₁⟩, hload, hrest⟩ := Option.bind_eq_some_iff.mp hrest
  simp only at hrest
  split at hrest
  · obtain ⟨hret, -⟩ := Prod.mk.inj (Option.some.inj hrest)
    omega
  · obtain ⟨hret, rfl⟩ := Prod.mk.inj (Option.some.inj hrest)
    obtain rfl : pid' = pid := by exact_mod_cast hret
    exact ⟨child₀, h₀, proc, h₁, retval, hinherit, hload, by omega, rfl, Function.update_self ..⟩

/-- The part of the table that is copied, and the references that are added. -/
theorem inherit_eq_some {child : Process} (hinherit : inherit im p h = some (child, h')) :
    0 ≤ p.openFiles ∧ p.openFiles ≤ 1024 ∧
      (∀ fd : ℕ, fd < 1024 → child.file fd = if (fd : ℤ) < p.openFiles then p.file fd else 0) ∧
      child.pFdObj = kidDup (freshProc im.beyond im.beyondMap).pFdObj p.pFdObj ∧
      child.pCurrCwd = p.pCurrCwd ∧
      h' = (closedByProc p).foldl Heap.incr (h.incr p.pCurrCwd) := by
  unfold inherit at hinherit
  split at hinherit
  · cases hinherit
  rename_i hfit
  obtain ⟨rfl, rfl⟩ := Prod.mk.inj (Option.some.inj hinherit)
  refine ⟨by omega, by omega, fun fd hfd => ?_, rfl, rfl, ?_⟩
  · have hin : (0 ≤ (fd : ℤ) ∧ (fd : ℤ) < p.openFiles.toNat) ↔ (fd : ℤ) < p.openFiles := by omega
    have hpage : 0 ≤ (fd : ℤ) ∧ (fd : ℤ) < 1024 := by omega
    simp only [hin]
    split
    · rfl
    · simp [freshProc, hpage]
  · simp only [closedByProc]
    congr 1
    apply List.map_congr_left
    intro i hi
    have hlt := List.mem_range.mp hi
    rw [if_pos (by omega)]

/-! ## Counting -/

/-- How often a file stands in the first `open_files` entries. -/
theorem count_closedByProc (p : Process) (fp : BitVec 32) :
    (closedByProc p).count fp = countBelow p.openFiles.toNat fun fd => p.file fd = fp :=
  count_map_range (fun i : ℕ => p.file i) _ _

/-- When the loop reaches every descriptor in use, it meets each file as often as the table has it. -/
theorem count_closedByProc_eq (hfit : p.openFiles ≤ 1024) (hcov : Covered p.toProc) (hfp : fp ≠ 0) :
    (closedByProc p).count fp = tableRefs p.toProc fp := by
  rw [count_closedByProc, tableRefs, if_neg hfp]
  refine (countBelow_eq_of_le (by omega) fun fd h₁ h₂ heq => ?_).symm
  have hlt := hcov fd h₂ (heq ▸ hfp)
  omega

/-- When the descriptors in use are the first ones, no entry that the loop meets is empty. -/
theorem count_closedByProc_contiguous (hcont : Contiguous p.toProc) (fp : BitVec 32) :
    (closedByProc p).count fp = tableRefs p.toProc fp := by
  obtain ⟨hfit, hused⟩ := hcont
  by_cases hfp : fp = 0
  · subst hfp
    rw [tableRefs_zero, List.count_eq_zero.mpr]
    intro hmem
    obtain ⟨i, hi, hzero⟩ := List.mem_map.mp hmem
    have hlt := List.mem_range.mp hi
    exact (hused i (by omega)).mpr (by omega) hzero
  · exact count_closedByProc_eq hfit (fun fd hfd hne => (hused fd hfd).mp hne) hfp

/-- The loops meet every file as often as the table has it only if they go over the descriptors in
use. -/
theorem contiguous_iff (hs32 : p.openFiles < 2 ^ 31) :
    Contiguous p.toProc ↔
      ∀ fp, (closedByProc p).count fp ≡ tableRefs p.toProc fp [MOD 2 ^ 32] := by
  constructor
  · intro hcont fp
    rw [count_closedByProc_contiguous hcont]
  · intro hcount
    have heq : ∀ fp, countBelow p.openFiles.toNat (fun fd => p.file fd = fp) = tableRefs p.toProc fp := by
      intro fp
      have hmod := hcount fp
      rw [count_closedByProc] at hmod
      have h₁ := countBelow_le p.openFiles.toNat fun fd => p.file fd = fp
      have h₂ := tableRefs_le p.toProc fp
      exact Nat.ModEq.eq_of_lt_of_lt hmod (by omega) (by omega)
    have hne : ∀ fd : ℕ, fd < p.openFiles.toNat → p.file fd ≠ 0 := by
      intro fd hfd hzero
      have hpos : 0 < countBelow p.openFiles.toNat fun fd => p.file fd = 0 :=
        countBelow_pos_iff.mpr ⟨fd, hfd, hzero⟩
      rw [heq, tableRefs_zero] at hpos
      exact absurd hpos (lt_irrefl 0)
    have htable : ∀ fd : ℕ, p.file fd ≠ 0 →
        countBelow p.openFiles.toNat (fun i => p.file i = p.file fd)
          = countBelow 1024 fun i => p.file i = p.file fd := by
      intro fd hfd
      rw [heq, tableRefs, if_neg hfd]
    refine ⟨?_, fun fd hfd => ⟨fun hused => ?_, fun hlt => hne fd (by omega)⟩⟩
    · -- an entry behind the table would be met once more
      by_contra hlarge
      have hlt := countBelow_lt (p := fun i => p.file i = p.file (1024 : ℕ)) (le_refl 1024)
        (show 1024 < p.openFiles.toNat by omega) rfl
      rw [htable 1024 (hne 1024 (by omega))] at hlt
      exact absurd hlt (lt_irrefl _)
    · -- an entry that the loop does not reach would be missed
      by_contra hlarge
      have hlt := countBelow_lt (p := fun i => p.file i = p.file fd)
        (show p.openFiles.toNat ≤ fd by omega) hfd rfl
      rw [htable fd hused] at hlt
      exact absurd hlt (lt_irrefl _)

/-- The counters after a process was created, for the files other than the one executed. -/
theorem count_created {child₀ : Process} {h₀ : Files} {exe : BitVec 32}
    (hinherit : inherit im p h = some (child₀, h₀)) (hexe : fp ≠ exe) (hfp : fp ≠ 0)
    (hfiles : h' = (b.noLibrary.foldl Heap.drop (h₀.open_ exe)).drop exe) :
    h'.count fp + b.noLibrary.count fp
      ≡ h.count fp + ((closedByProc p).count fp + cwdRefs p fp) [MOD 2 ^ 32] := by
  obtain ⟨-, -, -, -, -, rfl⟩ := inherit_eq_some hinherit
  have hdrop := count_drop (b.noLibrary.foldl Heap.drop (Heap.open_
    ((closedByProc p).foldl Heap.incr (h.incr p.pCurrCwd)) exe)) exe fp
  rw [if_neg (Ne.symm hexe), add_zero] at hdrop
  have hcwd := cwdRefs_eq (c := p) (Or.inl hfp)
  subst hfiles
  calc _ ≡ _ [MOD 2 ^ 32] := hdrop.add_right _
    _ ≡ _ [MOD 2 ^ 32] := count_dropAll _ fp b.noLibrary
    _ = ((closedByProc p).foldl Heap.incr (h.incr p.pCurrCwd)).count fp := count_open _ _ _ hexe
    _ ≡ (h.incr p.pCurrCwd).count fp + (closedByProc p).count fp [MOD 2 ^ 32] := count_incrAll _ _ _
    _ ≡ h.count fp + (if p.pCurrCwd = fp then 1 else 0) + (closedByProc p).count fp [MOD 2 ^ 32] :=
        (count_incr h p.pCurrCwd fp).add_right _
    _ = h.count fp + ((closedByProc p).count fp + cwdRefs p fp) := by
        rw [← hcwd]
        omega

/-! ## Main results -/

/-- **What a child inherits.** It gets the table of its parent, with one reference more for each
entry, exactly when no descriptor from `open_files` on is in use, the loader's descriptor is not one in
use, and no library is looked for in vain with an open file in the uninitialised variable. -/
theorem inherits_iff (hp : s.sysProc ppid = some p)
    (hcreate : kcreateProcess (some ppid) im s = some ((pid : ℤ), s')) :
    ∃ (exe : File) (child : Process), im.binary.open_ = .opened exe ∧ s'.sysProc pid = some child ∧
      (Inherits p exe.1 s s' child ↔
        Covered p.toProc ∧ SlotFree im p.toProc ∧ NoStray im.binary exe.1) := by
  obtain ⟨child₀, h₀, proc, h₁, retval, hinherit, hload, hret, hfiles, hchild⟩ :=
    kcreateProcess_eq_some hp hcreate
  obtain ⟨exe, fd, obj, hopen, hid, hfile, -, rfl⟩ := loadBinary_eq_some hret hload
  obtain ⟨hnonneg, hfit, htable₀, hmap, -, -⟩ := inherit_eq_some hinherit
  have hcount : ∀ fp, fp ≠ 0 → fp ≠ exe.1 → s'.files.count fp + im.binary.noLibrary.count fp
      ≡ s.files.count fp + ((closedByProc p).count fp + cwdRefs p fp) [MOD 2 ^ 32] :=
    fun fp h0 hne => count_created hinherit hne h0 hfiles
  have hentry : ∀ j : ℕ, j < 1024 →
      proc.file j = if j = fd then 0 else if (j : ℤ) < p.openFiles then p.file j else 0 := by
    intro j hj
    rw [hfile]
    by_cases hjf : j = fd
    · subst hjf
      simp
    · rw [Function.update_of_ne (by exact_mod_cast hjf), if_neg hjf, htable₀ j hj]
  refine ⟨exe, _, hopen, hchild, fun hinh => ?_, fun ⟨hcov, hslot, hstray⟩ => ?_⟩
  · have hcov : Covered p.toProc := by
      intro j hj hne
      have heq := hinh.table j hj
      simp only [hentry j hj] at heq
      by_contra hlarge
      rw [if_neg hlarge, ite_self] at heq
      exact hne heq.symm
    refine ⟨hcov, fun id obj' hid' hlt => ?_, fun fp h0 hne => ?_⟩
    · rw [← hmap, hid] at hid'
      obtain ⟨rfl, -⟩ := Prod.mk.inj (Option.some.inj hid')
      have heq := hinh.table fd hlt
      simp only [hentry fd hlt, if_true] at heq
      exact heq.symm
    · have h₁ := hcount fp h0 hne
      rw [count_closedByProc_eq hfit hcov h0] at h₁
      have h₂ : s'.files.count fp + im.binary.noLibrary.count fp ≡ s'.files.count fp + 0 [MOD 2 ^ 32] :=
        h₁.trans (hinh.refs fp h0 hne).symm
      exact Nat.ModEq.add_left_cancel' _ h₂
  · refine ⟨fun j hj => ?_, fun fp h0 hne => ?_⟩
    · simp only [hentry j hj]
      by_cases hjf : j = fd
      · subst hjf
        rw [if_pos rfl, hslot j obj (hmap ▸ hid) hj]
      · rw [if_neg hjf]
        by_cases hlt : (j : ℤ) < p.openFiles
        · rw [if_pos hlt]
        · rw [if_neg hlt]
          by_contra hne
          exact hlt (hcov j hj (Ne.symm hne))
    · have h₁ := hcount fp h0 hne
      rw [count_closedByProc_eq hfit hcov h0] at h₁
      have h₂ : s'.files.count fp + im.binary.noLibrary.count fp ≡ s'.files.count fp + 0 [MOD 2 ^ 32] :=
        Nat.ModEq.add_left _ (hstray fp h0 hne)
      exact h₂.symm.trans h₁

/-- **What a process closes.** Every open descriptor is closed once, and nothing else, exactly when
the descriptors in use are the first `open_files` ones. -/
theorem closesAll_iff (hp : s.sysProc pid = some p) (hs32 : p.openFiles < 2 ^ 31)
    (hclose : kcloseProc pid s = some s') :
    ClosesAll p s.files s'.files ↔ Contiguous p.toProc := by
  simp only [kcloseProc, hp, Option.bind_eq_bind, Option.bind_some, vfsClose_eq] at hclose
  obtain rfl := Option.some.inj hclose
  have hcount : ∀ fp, (if p.pCurrCwd ≠ 0 then ((closedByProc p).foldl Heap.drop s.files).drop p.pCurrCwd
        else (closedByProc p).foldl Heap.drop s.files).count fp + cwdRefs p fp
        + (closedByProc p).count fp ≡ s.files.count fp [MOD 2 ^ 32] := by
    intro fp
    refine Nat.ModEq.trans (Nat.ModEq.add_right _ ?_) (count_dropAll s.files fp (closedByProc p))
    by_cases hcwd : p.pCurrCwd = 0
    · have hzero : cwdRefs p fp = 0 := if_neg fun h => h.1 (h.2 ▸ hcwd)
      rw [if_neg (not_not.mpr hcwd), hzero]
      exact Nat.ModEq.refl _
    · rw [if_pos hcwd, cwdRefs_eq (Or.inr hcwd)]
      exact count_drop _ _ _
  rw [contiguous_iff hs32]
  refine forall_congr' fun fp => ⟨fun hall => ?_, fun hall => ?_⟩
  · have h₂ := (hcount fp).trans hall.symm
    rw [Nat.add_assoc, Nat.add_comm (cwdRefs p fp)] at h₂
    exact Nat.ModEq.add_right_cancel' _ (Nat.ModEq.add_left_cancel' _ h₂)
  · refine Nat.ModEq.trans ?_ (hcount fp)
    rw [Nat.add_assoc, Nat.add_comm (cwdRefs p fp)]
    exact Nat.ModEq.add_left _ (hall.symm.add_right _)

end

/-! ## A shell with some descriptors open -/

/-- A process with one file for each of some descriptors. -/
def shell (fds : List ℕ) : Process :=
  { freshProc (fun _ => 0) fun _ => 0 with
    file := fun fd => if fd.toNat ∈ fds ∧ 0 ≤ fd then BitVec.ofInt 32 (4096 + 64 * fd) else 0
    pFdObj := fds.foldl resvId (kernelIdMapInit 128 fun _ => 0)
    openFiles := fds.length
    pCurrCwd := 256 }

/-- The shell is process 1. -/
def shellSys (fds : List ℕ) : Sys where
  files := { count := fun _ => 1, live := fun fp => fp != 8192, fault := false }
  sysProc := fun pid => if pid = 1 then some (shell fds) else none
  kpidObj := [0, 1].foldl resvId (kernelIdMapInit 4096 fun _ => 0)

/-- A program at address 8192 that loads. -/
def goodImage : Image where
  beyond := fun _ => 0
  beyondMap := fun _ => 0
  root := .noPath (-eNODEV)
  setupArgEnv := 0
  binary :=
    { open_ := .opened ⟨8192#32, by decide⟩, junk := 0, mayExecute := true, vfsRead := 128
      loadElf := 0, noLibrary := [] }

end Shaunos.Fs
