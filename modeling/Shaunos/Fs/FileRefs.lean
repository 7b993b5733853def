import Shaunos.Fs.Inherit

/-!
# References to open files

Reference: `Kernel/vfs.c` (`kopen`, `kclose`, `kfcntl`, `kdup2`).

Every descriptor and every current directory is one reference to a `file_t`. A call that keeps the
references and the counters in step keeps `SysInv`; the others are left out by `Paired`.

* `Moves` — what a call on one process has to do: the references it adds or drops are its own;
* `SysInv.onProc` — what a call on one process keeps, the system keeps;
* `Moves.kopen`, `Moves.kclose`, `Moves.kdup2`, `Moves.kfcntl` — the calls on one process.
-/

namespace Shaunos.Fs

open Pid RefCount

/-! ## References of all processes -/

/-- Add up over all processes. -/
def sumProcs (s : ℕ → Option Process) (f : Process → ℕ) : ℕ :=
  ∑ pid ∈ Finset.range 32768, (s pid).elim 0 f

/-- The descriptor table entries, over all processes, that point to a file. -/
def entries (s : Sys) (fp : BitVec 32) : ℕ := sumProcs s.sysProc fun p => tableRefs p.toProc fp

/-- The processes that have a file as their current directory. -/
def dirs (s : Sys) (fp : BitVec 32) : ℕ := sumProcs s.sysProc fun p => cwdRefs p fp

/-- The counter of every open file is the number of its references, a file is open as long as it has
one, no file is closed after it was freed, and a current directory has no descriptor. -/
structure RefCounted (s : Sys) : Prop where
  count : ∀ fp, s.files.live fp = true → s.files.count fp = entries s fp + dirs s fp
  live : ∀ fp, s.files.live fp = true ↔ 0 < entries s fp + dirs s fp
  once : s.files.fault = false
  apart : ∀ fp, entries s fp = 0 ∨ dirs s fp = 0

/-! ## Calls -/

/-- The calls on the files of a process, with what they meet. -/
inductive FileCall where
  | kopen (pid : ℕ) (mounts : Mounts) (path : Option (List Char)) (flag mode junk : BitVec 32)
  | kclose (pid : ℕ) (fd : ℤ)
  | kdup2 (pid : ℕ) (oldfd newfd : ℤ)
  | kfcntl (pid : ℕ) (fd cmd : ℤ) (fFlags : BitVec 32)
  | kcreateProcess (parent : Option ℕ) (im : Image)
  | kcloseProc (pid : ℕ)

/-- A call of one process. -/
def Sys.onProc (s : Sys) (pid : ℕ) (f : Process → Files → Option (Proc × Files)) : Option Sys := do
  let p ← s.sysProc pid
  let (proc, h) ← f p s.files
  return { s with
    files := h, sysProc := Function.update s.sysProc pid (some { p with toProc := proc }) }

/-- The system after a call that returns. -/
def Sys.call (s : Sys) : FileCall → Option Sys
  | .kopen pid mounts path flag mode junk => s.onProc pid fun p h =>
      (kopenFiles mounts path flag mode junk p.toProc h).map Prod.snd
  | .kclose pid fd => s.onProc pid fun p h => some ((kclose fd p.toProc).2, kcloseFiles fd p.toProc h)
  | .kdup2 pid oldfd newfd => s.onProc pid fun p h =>
      some ((kdup2 oldfd newfd p.toProc).2, kdup2Files oldfd newfd p.toProc h)
  | .kfcntl pid fd cmd fFlags => s.onProc pid fun p h => do
      let (_, proc) ← kfcntl fd cmd fFlags p.toProc
      let h ← kfcntlFiles fd cmd fFlags p.toProc h
      return (proc, h)
  | .kcreateProcess parent im => (kcreateProcess parent im s).map Prod.snd
  | .kcloseProc pid => kcloseProc pid s

/-- No process, no file; all process ids are free. -/
def bootSys (count : BitVec 32 → ℕ) (beyond : ℕ → BitVec 32) : Sys where
  files := { count := count, live := fun _ => false, fault := false }
  sysProc := fun _ => none
  kpidObj := kernelIdMapInit 4096 beyond

/-! ## Calls that keep references and counters in step -/

/-- `mp_ops->open` does not fail. -/
def OpenResult.found : OpenResult → Bool
  | .noFile _ => false
  | _ => true

/-- The device opens. -/
def DevResult.found : DevResult → Bool
  | .noDevice _ _ => false
  | _ => true

/-- The file system or device that a `kopen` asks does not fail after the path was found. -/
def Mounts.Found (mounts : Mounts) (name : List Char) (flag : BitVec 32) : Prop :=
  if name.head? = some '/' then
    if ['d', 'e', 'v'] <+: name.dropWhile (· == '/') then (mounts.openDev name flag).found = true
    else mounts.hasRootv = false ∨ flag &&& 0x200 ≠ 0 ∨ (mounts.openRoot name flag).found = true
  else (mounts.openCwd name flag).found = true

instance (mounts : Mounts) (name : List Char) (flag : BitVec 32) :
    Decidable (mounts.Found name flag) := by
  unfold Mounts.Found
  infer_instance

/-- `vfs_open` ends with a file. -/
def OpenResult.isOpened : OpenResult → Bool
  | .opened _ => true
  | _ => false

/-- The program of a new process is loaded, and no library is looked for where it is not. -/
def Image.Starts (im : Image) : Prop :=
  0 ≤ im.setupArgEnv ∧ im.binary.open_.isOpened = true ∧ im.binary.mayExecute = true ∧
    0 ≤ im.binary.vfsRead ∧ 0 ≤ im.binary.loadElf ∧ im.binary.noLibrary = []

instance (im : Image) : Decidable im.Starts := inferInstanceAs (Decidable (_ ∧ _))

/-- The root directory is not found, or the new process starts. -/
def Image.Boots (im : Image) : Prop :=
  im.root.found = true ∧ (im.root.isOpened = true → im.Starts)

instance (im : Image) : Decidable im.Boots := inferInstanceAs (Decidable (_ ∧ _))

/-- The calls that keep references and counters in step. A name that is not there closes the file that
an uninitialised variable names; a device that does not open leaves its file behind; `kdup2` adds a
reference that it does not count; a process that does not start keeps what it inherited; a process
closes the descriptors below `open_files` only. -/
def Paired (s : Sys) : FileCall → Prop
  | .kopen pid mounts path flag _ _ => ∀ p ∈ s.sysProc pid, ∀ name ∈ path,
      p.openFiles > 1024 ∨ overLimit p.toProc p.openFiles ∨ mounts.Found name flag
  | .kclose pid fd => ∀ p ∈ s.sysProc pid, p.file fd ≠ 0 → 0 ≤ fd ∧ fd < 1024
  | .kdup2 pid oldfd newfd => ∀ p ∈ s.sysProc pid,
      oldfd ≥ 1024 ∨ newfd ≥ 1024 ∨ overLimit p.toProc newfd ∨ p.file oldfd = 0 ∨
        p.file oldfd = p.file newfd ∨ (newfd < 0 ∧ p.file newfd = 0)
  | .kfcntl pid fd cmd fFlags => ∀ p ∈ s.sysProc pid,
      cmd = 0 → p.file fd ≠ 0 → fFlags &&& 3 ≠ 0 → 0 ≤ fd ∧ fd < 1024
  | .kcreateProcess none im => im.Boots
  | .kcreateProcess (some ppid) im => ∀ _p ∈ s.sysProc ppid, im.Starts
  | .kcloseProc pid => ∀ p ∈ s.sysProc pid, Contiguous p.toProc

instance (s : Sys) : ∀ c, Decidable (Paired s c)
  | .kopen pid mounts path flag _ _ => inferInstanceAs (Decidable (∀ p ∈ s.sysProc pid,
      ∀ name ∈ path, p.openFiles > 1024 ∨ overLimit p.toProc p.openFiles ∨ mounts.Found name flag))
  | .kclose pid fd => inferInstanceAs (Decidable (∀ p ∈ s.sysProc pid,
      p.file fd ≠ 0 → 0 ≤ fd ∧ fd < 1024))
  | .kdup2 pid oldfd newfd => inferInstanceAs (Decidable (∀ p ∈ s.sysProc pid,
      oldfd ≥ 1024 ∨ newfd ≥ 1024 ∨ overLimit p.toProc newfd ∨ p.file oldfd = 0 ∨
        p.file oldfd = p.file newfd ∨ (newfd < 0 ∧ p.file newfd = 0)))
  | .kfcntl pid fd cmd fFlags => inferInstanceAs (Decidable (∀ p ∈ s.sysProc pid,
      cmd = 0 → p.file fd ≠ 0 → fFlags &&& 3 ≠ 0 → 0 ≤ fd ∧ fd < 1024))
  | .kcreateProcess none im => inferInstanceAs (Decidable im.Boots)
  | .kcreateProcess (some ppid) im =>
      inferInstanceAs (Decidable (∀ _p ∈ s.sysProc ppid, im.Starts))
  | .kcloseProc pid => inferInstanceAs (Decidable (∀ p ∈ s.sysProc pid, Contiguous p.toProc))

/-! ## The invariant -/

/-- A free id has no table entry, and there is a current directory. -/
structure ProcOk (p : Process) : Prop where
  map : p.pFdObj.WF 32
  free : ∀ fd : ℕ, fd < 1024 → IsFree p.pFdObj fd → p.file fd = 0
  cwd : p.pCurrCwd ≠ 0

/-- The references of one process. -/
def procRefs (p : Process) (fp : BitVec 32) : ℕ := tableRefs p.toProc fp + cwdRefs p fp

/-- The references of all processes. -/
def refs (s : Sys) (fp : BitVec 32) : ℕ := sumProcs s.sysProc fun p => procRefs p fp

/-- What every reached state meets. -/
structure SysInv (s : Sys) : Prop where
  accounts : Accounts s.files (refs s)
  procOk : ∀ pid p, s.sysProc pid = some p → pid < 32768 ∧ ¬ IsFree s.kpidObj pid ∧ ProcOk p
  apart : ∀ pid p pid' p', s.sysProc pid = some p → s.sysProc pid' = some p' →
    ∀ fd : ℕ, fd < 1024 → p.file fd ≠ p'.pCurrCwd
  map : s.kpidObj.WF 1024

/-- A call of one process: it keeps `ProcOk` and the current directory, a table entry that was not
there is a new file, and the references added and dropped are those that are counted. -/
structure Moves (p : Process) (h : Files) (p' : Process) (h' : Files) : Prop where
  procOk : ProcOk p'
  cwd : p'.pCurrCwd = p.pCurrCwd
  table : ∀ fd : ℕ, fd < 1024 → p'.file fd = 0 ∨ (∃ j : ℕ, j < 1024 ∧ p'.file fd = p.file j) ∨
    h.live (p'.file fd) = false
  accounts : ∀ R : BitVec 32 → ℕ, (∀ fp, R fp + 4096 < 2 ^ 32) →
    Accounts h (fun fp => R fp + procRefs p fp) → Accounts h' fun fp => R fp + procRefs p' fp

section

variable {s : Sys} {p p' : Process} {q q' : Proc} {h h' : Files} {pid : ℕ} {fp : BitVec 32}

theorem procRefs_le (p : Process) (fp : BitVec 32) : procRefs p fp ≤ 1025 := by
  have htable := tableRefs_le p.toProc fp
  have hcwd : cwdRefs p fp ≤ 1 := by
    unfold cwdRefs
    split <;> omega
  unfold procRefs
  omega

theorem refs_eq (s : Sys) (fp : BitVec 32) : refs s fp = entries s fp + dirs s fp := by
  unfold refs entries dirs sumProcs
  rw [← Finset.sum_add_distrib]
  refine Finset.sum_congr rfl fun pid _ => ?_
  cases s.sysProc pid <;> rfl

/-- A sum over the processes that is not zero has a process that adds to it. -/
theorem exists_of_sum_ne_zero {n : ℕ} {procs : ℕ → Option Process} {f : Process → ℕ}
    (hne : ∑ pid ∈ Finset.range n, (procs pid).elim 0 f ≠ 0) :
    ∃ pid p, procs pid = some p ∧ f p ≠ 0 := by
  obtain ⟨pid, -, hpid⟩ := Finset.exists_ne_zero_of_sum_ne_zero hne
  cases hp : procs pid with
  | none => exact absurd (by rw [hp]; rfl) hpid
  | some p =>
      rw [hp] at hpid
      exact ⟨pid, p, hp, hpid⟩

/-- No reference goes to address 0. -/
theorem refs_zero (s : Sys) : refs s 0 = 0 := by
  by_contra hne
  obtain ⟨-, p, -, hp⟩ := exists_of_sum_ne_zero hne
  rw [procRefs, tableRefs_zero, cwdRefs, if_neg fun hc => hc.1 rfl] at hp
  exact hp rfl

/-- One summand can be taken out of a sum. -/
theorem sum_update {n i : ℕ} (procs : ℕ → Option Process) (f : Process → ℕ) (hi : i < n)
    (o : Option Process) :
    ∑ j ∈ Finset.range n, (Function.update procs i o j).elim 0 f
      = ∑ j ∈ (Finset.range n).erase i, (procs j).elim 0 f + o.elim 0 f := by
  rw [← Finset.sum_erase_add _ _ (Finset.mem_range.mpr hi), Function.update_self]
  congr 1
  refine Finset.sum_congr rfl fun j hj => ?_
  rw [Function.update_of_ne (Finset.ne_of_mem_erase hj)]

/-- What the other processes add up to. -/
theorem sum_erase_le {n i : ℕ} (procs : ℕ → Option Process) (hi : i < n) :
    ∑ j ∈ (Finset.range n).erase i, (procs j).elim 0 (fun p => procRefs p fp) ≤ (n - 1) * 1025 := by
  have hcard := Finset.card_erase_of_mem (Finset.mem_range.mpr hi)
  rw [Finset.card_range] at hcard
  rw [← hcard, ← smul_eq_mul]
  refine Finset.sum_le_card_nsmul _ _ _ fun j _ => ?_
  cases procs j with
  | none => exact Nat.zero_le _
  | some p => exact procRefs_le p fp

/-- The references of one process and those of the others. -/
theorem refs_split (s : Sys) (hpid : pid < 32768) :
    ∃ R : BitVec 32 → ℕ, (∀ fp, R fp + 4096 < 2 ^ 32) ∧
      (∀ fp, refs s fp = R fp + (s.sysProc pid).elim 0 fun p => procRefs p fp) ∧
      ∀ (o : Option Process) (h : Files) (kpidObj : KidObject) (fp : BitVec 32),
        refs { files := h, sysProc := Function.update s.sysProc pid o, kpidObj := kpidObj } fp
          = R fp + o.elim 0 fun p => procRefs p fp := by
  refine ⟨fun fp => ∑ i ∈ (Finset.range 32768).erase pid,
    (s.sysProc i).elim 0 fun p => procRefs p fp, fun fp => ?_, fun fp => ?_, fun o h kpidObj fp => ?_⟩
  · have hle := @sum_erase_le fp _ _ s.sysProc hpid
    simp only
    omega
  · have hsum := sum_update s.sysProc (fun p => procRefs p fp) hpid (s.sysProc pid)
    rw [Function.update_eq_self] at hsum
    unfold refs sumProcs
    exact hsum
  · unfold refs sumProcs
    exact sum_update s.sysProc (fun p => procRefs p fp) hpid o

/-- Change one table entry of a process. -/
theorem procRefs_update {fd : ℕ} (hfd : fd < 1024) (v : BitVec 32) (obj : KidObject) (n : ℤ)
    (p : Process) (fp : BitVec 32) :
    procRefs { p with file := Function.update p.file (fd : ℤ) v, pFdObj := obj, openFiles := n } fp
        + (if fp ≠ 0 ∧ p.file fd = fp then 1 else 0)
      = procRefs p fp + if fp ≠ 0 ∧ v = fp then 1 else 0 := by
  have hupd := tableRefs_update hfd v p.toProc fp
  have htable : tableRefs { p.toProc with
        file := Function.update p.file (fd : ℤ) v, pFdObj := obj, openFiles := n } fp
      = tableRefs { p.toProc with file := Function.update p.file (fd : ℤ) v } fp :=
    tableRefs_congr (fun _ _ => rfl) fp
  have hcwd : cwdRefs { p with
        file := Function.update p.file (fd : ℤ) v, pFdObj := obj, openFiles := n } fp
      = cwdRefs p fp := rfl
  unfold procRefs
  rw [hcwd]
  simp only at htable ⊢
  omega

/-- A table entry that is in use refers to its file. -/
theorem ref_iff {v : BitVec 32} (hv : v ≠ 0) :
    (if fp ≠ 0 ∧ v = fp then 1 else 0) = if fp = v then 1 else 0 :=
  if_congr ⟨fun hc => hc.2.symm, fun hc => ⟨hc ▸ hv, hc.symm⟩⟩ rfl rfl

/-- A file that a process refers to is open. -/
theorem SysInv.live_of_refs (hinv : SysInv s) (hp : s.sysProc pid = some p)
    (hpos : 0 < procRefs p fp) : s.files.live fp = true := by
  obtain ⟨R, -, hR, -⟩ := refs_split s (hinv.procOk pid p hp).1
  refine (hinv.accounts.live fp).mpr ?_
  rw [hR, hp]
  simp only [Option.elim_some]
  omega

theorem procRefs_cwd_pos (hp : ProcOk p) : 0 < procRefs p p.pCurrCwd := by
  have hone : cwdRefs p p.pCurrCwd = 1 := if_pos ⟨hp.cwd, rfl⟩
  unfold procRefs
  omega

/-- What a call on one process keeps, the system keeps. -/
theorem SysInv.onProc (hinv : SysInv s) (hp : s.sysProc pid = some p)
    (hmoves : Moves p s.files p' h') :
    SysInv { s with files := h', sysProc := Function.update s.sysProc pid (some p') } := by
  obtain ⟨hpid, hid, hok⟩ := hinv.procOk pid p hp
  obtain ⟨R, hbound, hR, hR'⟩ := refs_split s hpid
  have hold : Accounts s.files fun fp => R fp + procRefs p fp := hinv.accounts.congr fun fp => by
    rw [hR, hp]
    rfl
  have hprocs : ∀ i o, Function.update s.sysProc pid (some p') i = some o →
      (i = pid ∧ o = p') ∨ (s.sysProc i = some o) := by
    intro i o ho
    by_cases hi : i = pid
    · subst hi
      rw [Function.update_self] at ho
      exact Or.inl ⟨rfl, (Option.some.inj ho).symm⟩
    · rw [Function.update_of_ne hi] at ho
      exact Or.inr ho
  -- every current directory was one before
  have hcwd : ∀ i o, Function.update s.sysProc pid (some p') i = some o →
      ∃ i₀ o₀, s.sysProc i₀ = some o₀ ∧ o.pCurrCwd = o₀.pCurrCwd := by
    intro i o ho
    rcases hprocs i o ho with ⟨-, rfl⟩ | ho
    · exact ⟨pid, p, hp, hmoves.cwd⟩
    · exact ⟨i, o, ho, rfl⟩
  refine ⟨(hmoves.accounts R hbound hold).congr fun fp => hR' (some p') h' _ fp, fun i o ho => ?_,
    fun i o i' o' ho ho' fd hfd => ?_, hinv.map⟩
  · rcases hprocs i o ho with ⟨rfl, rfl⟩ | ho
    · exact ⟨hpid, hid, hmoves.procOk⟩
    · exact hinv.procOk i o ho
  · obtain ⟨i₀, o₀, ho₀, heq⟩ := hcwd i' o' ho'
    have hok₀ := (hinv.procOk i₀ o₀ ho₀).2.2
    rw [heq]
    rcases hprocs i o ho with ⟨rfl, rfl⟩ | ho
    · rcases hmoves.table fd hfd with hzero | ⟨j, hj, hfile⟩ | hfresh
      · exact hzero ▸ (Ne.symm hok₀.cwd)
      · exact hfile ▸ hinv.apart _ p i₀ o₀ hp ho₀ j hj
      · intro hcontra
        have hlive := hinv.live_of_refs ho₀ (procRefs_cwd_pos hok₀)
        rw [← hcontra, hfresh] at hlive
        exact absurd hlive (by simp)
    · exact hinv.apart i o i₀ o₀ ho ho₀ fd hfd

/-! ## Calls on one process -/

/-- The references that are counted stay as they are. -/
def Settled (h h' : Files) : Prop :=
  ∀ R : BitVec 32 → ℕ, (∀ fp, R fp + 1 < 2 ^ 32) → Accounts h R → Accounts h' R

/-- Nothing but the id map and the counter of descriptors changes, and no id gets free. -/
theorem Moves.same (hok : ProcOk p) {obj : KidObject} (hmap : obj.WF 32)
    (hfree : ∀ fd, IsFree obj fd → IsFree p.pFdObj fd) (n : ℤ) (hsettled : Settled h h') :
    Moves p h { p with pFdObj := obj, openFiles := n } h' :=
  ⟨⟨hmap, fun fd hfd hf => hok.free fd hfd (hfree fd hf), hok.cwd⟩, rfl,
    fun fd hfd => Or.inr (Or.inl ⟨fd, hfd, rfl⟩), fun R hR hacc => hsettled _ (fun fp => by
      have hle := procRefs_le { p with pFdObj := obj, openFiles := n } fp
      have := hR fp
      omega) hacc⟩

theorem Settled.refl (h : Files) : Settled h h := fun _ _ hacc => hacc

theorem Moves.refl (hok : ProcOk p) (hsettled : Settled h h') : Moves p h p h' :=
  Moves.same hok hok.map (fun _ hf => hf) p.openFiles hsettled

/-- A counted file is put at a fresh id. -/
theorem Moves.attach (hok : ProcOk p) {fd : ℕ} {obj : KidObject} (file : File) (n : ℤ)
    (hid : getUnusedId p.pFdObj = some (fd, obj))
    (hfile : (∃ j : ℕ, j < 1024 ∧ file.1 = p.file j) ∨ h.live file.1 = false)
    (hacc : ∀ R : BitVec 32 → ℕ, (∀ fp, R fp + 4096 < 2 ^ 32) →
      Accounts h (fun fp => R fp + procRefs p fp) →
        Accounts h' fun fp => R fp + procRefs p fp + if fp = file.1 then 1 else 0) :
    fdAttach fd { p.toProc with pFdObj := obj, openFiles := n } file.1
        = ((fd : ℤ), { p.toProc with
            file := Function.update p.file fd file.1, pFdObj := obj, openFiles := n }) ∧
      Moves p h { p with
        file := Function.update p.file (fd : ℤ) file.1, pFdObj := obj, openFiles := n } h' := by
  obtain ⟨hfd, hfree, hmap, hall⟩ := getUnusedId_spec hok.map hid
  have hzero := hok.free fd hfd hfree
  refine ⟨fdAttach_eq (p := { p.toProc with pFdObj := obj, openFiles := n }) hfd hzero _,
    ⟨hmap, fun j hj hf => ?_, hok.cwd⟩, rfl, fun j hj => ?_, fun R hR hold => ?_⟩
  · obtain ⟨hf, hne⟩ := (hall j).mp hf
    simp only
    rw [Function.update_of_ne (by exact_mod_cast hne)]
    exact hok.free j hj hf
  · by_cases hjf : j = fd
    · subst hjf
      simp only [Function.update_self]
      exact Or.inr hfile
    · simp only
      rw [Function.update_of_ne (by exact_mod_cast hjf)]
      exact Or.inr (Or.inl ⟨j, hj, rfl⟩)
  · refine (hacc R hR hold).congr fun fp => ?_
    have hupd := procRefs_update hfd file.1 obj n p fp
    rw [hzero, if_neg fun hc => hc.1 hc.2.symm, add_zero, ref_iff file.2] at hupd
    omega

/-- A descriptor in use is closed. -/
theorem Moves.detach (hok : ProcOk p) {fd : ℕ} (hfd : fd < 1024) (hused : p.file fd ≠ 0) (n : ℤ)
    (h : Files) :
    Moves p h { p with
      file := Function.update p.file (fd : ℤ) 0, pFdObj := putId p.pFdObj fd, openFiles := n }
      (vfsClose (p.file fd) h) := by
  refine ⟨⟨hok.map.putId fd, fun j hj hf => ?_, hok.cwd⟩, rfl, fun j hj => ?_, fun R hR hold => ?_⟩
  · by_cases hjf : j = fd
    · subst hjf
      simp
    · simp only
      rw [Function.update_of_ne (by exact_mod_cast hjf)]
      exact hok.free j hj (((isFree_putId _ _ _).mp hf).resolve_right hjf)
  · by_cases hjf : j = fd
    · subst hjf
      simp
    · simp only
      rw [Function.update_of_ne (by exact_mod_cast hjf)]
      exact Or.inr (Or.inl ⟨j, hj, rfl⟩)
  · rw [vfsClose_eq]
    refine Accounts.drop (hold.congr fun fp => ?_) ?_
    · have hupd := procRefs_update hfd 0 (putId p.pFdObj fd) n p fp
      have hnone : ¬ (fp ≠ 0 ∧ (0 : BitVec 32) = fp) := fun hc => hc.1 hc.2.symm
      rw [ref_iff hused, if_neg hnone, add_zero] at hupd
      omega
    · have hle := procRefs_le { p with
        file := Function.update p.file (fd : ℤ) 0, pFdObj := putId p.pFdObj fd, openFiles := n }
        (p.file fd)
      have := hR (p.file fd)
      omega

/-- How a file is found: a failure leaves no reference, a success opens a new file. -/
def Opens (h : Files) (r : Except ℤ File) (h' : Files) : Prop :=
  match r with
  | .error _ => Settled h h'
  | .ok file => h.live file.1 = false ∧ h' = h.open_ file.1

/-- A file that is opened and closed again leaves no reference. -/
theorem Settled.open_close {file : File} (hnew : h.live file.1 = false) :
    Settled h (vfsClose file.1 (h.open_ file.1)) := by
  intro R hR hacc
  rw [vfsClose_eq]
  exact (hacc.open_ hnew).drop (hR file.1)

theorem vfsOpen_spec {o : OpenResult} {junk : BitVec 32} {r : Except ℤ File}
    (hopen : vfsOpen o junk h = some (r, h')) (hfound : o.found = true) : Opens h r h' := by
  cases o with
  | noPath retval =>
      obtain ⟨rfl, rfl⟩ := Prod.mk.inj (Option.some.inj hopen)
      exact Settled.refl h
  | noFile retval => exact absurd hfound (by simp [OpenResult.found])
  | noPermission file =>
      rw [vfsOpen] at hopen
      split at hopen
      · cases hopen
      rename_i hnew
      obtain ⟨rfl, rfl⟩ := Prod.mk.inj (Option.some.inj hopen)
      exact Settled.open_close (by simpa using hnew)
  | opened file =>
      rw [vfsOpen] at hopen
      split at hopen
      · cases hopen
      rename_i hnew
      obtain ⟨rfl, rfl⟩ := Prod.mk.inj (Option.some.inj hopen)
      exact ⟨by simpa using hnew, fget_eq _ _⟩

/-- Only a file that is opened is handed out. -/
theorem vfsOpen_isOpened {o : OpenResult} {junk : BitVec 32} {file : File}
    (hopen : vfsOpen o junk h = some (.ok file, h')) : o.isOpened = true := by
  cases o with
  | opened file => rfl
  | noPath retval => simp [vfsOpen] at hopen
  | noFile retval => simp [vfsOpen] at hopen
  | noPermission file =>
      rw [vfsOpen] at hopen
      split at hopen <;> simp at hopen

theorem vfsOpenDev_spec {d : DevResult} {r : Except ℤ File}
    (hopen : vfsOpenDev d h = some (r, h')) (hfound : d.found = true) : Opens h r h' := by
  cases d with
  | noPath retval =>
      obtain ⟨rfl, rfl⟩ := Prod.mk.inj (Option.some.inj hopen)
      exact Settled.refl h
  | noDevice retval file => exact absurd hfound (by simp [DevResult.found])
  | opened file =>
      rw [vfsOpenDev] at hopen
      split at hopen
      · cases hopen
      rename_i hnew
      obtain ⟨rfl, rfl⟩ := Prod.mk.inj (Option.some.inj hopen)
      exact ⟨by simpa using hnew, rfl⟩

theorem vfsCreate_spec {c r : Except ℤ File} (hopen : vfsCreate c h = some (r, h')) :
    Opens h r h' := by
  cases c with
  | error retval =>
      obtain ⟨rfl, rfl⟩ := Prod.mk.inj (Option.some.inj hopen)
      exact Settled.refl h
  | ok file =>
      rw [vfsCreate] at hopen
      split at hopen
      · cases hopen
      rename_i hnew
      obtain ⟨rfl, rfl⟩ := Prod.mk.inj (Option.some.inj hopen)
      exact ⟨by simpa using hnew, rfl⟩

theorem openFile_spec {mounts : Mounts} {name : List Char} {flag mode junk : BitVec 32}
    {r : Except ℤ File} (hopen : openFile mounts name flag mode junk h = some (r, h'))
    (hfound : mounts.Found name flag) : Opens h r h' := by
  unfold openFile at hopen
  unfold Mounts.Found at hfound
  split at hopen
  · rename_i habs
    rw [if_pos habs] at hfound
    split at hopen
    · rename_i hdev
      rw [if_pos hdev] at hfound
      exact vfsOpenDev_spec hopen hfound
    rename_i hdev
    rw [if_neg hdev] at hfound
    split at hopen
    · obtain ⟨rfl, rfl⟩ := Prod.mk.inj (Option.some.inj hopen)
      exact Settled.refl h
    rename_i hroot
    split at hopen
    · exact vfsCreate_spec hopen
    rename_i hcreate
    rcases hfound with hnone | hflag | hfound
    · exact absurd (by simp [hnone]) hroot
    · exact absurd hflag hcreate
    · exact vfsOpen_spec hopen hfound
  · rename_i hrel
    rw [if_neg hrel] at hfound
    exact vfsOpen_spec hopen hfound

/-- `kopen` puts a new file at a fresh id. -/
theorem Moves.kopen {mounts : Mounts} {path : Option (List Char)} {flag mode junk : BitVec 32}
    {ret : ℤ} (hok : ProcOk p)
    (hfound : ∀ name, path = some name →
      p.openFiles > 1024 ∨ overLimit p.toProc p.openFiles ∨ mounts.Found name flag)
    (hopen : kopenFiles mounts path flag mode junk p.toProc h = some (ret, q', h')) :
    Moves p h { p with toProc := q' } h' := by
  unfold kopenFiles at hopen
  split at hopen
  · obtain ⟨-, hrest⟩ := Prod.mk.inj (Option.some.inj hopen)
    obtain ⟨rfl, rfl⟩ := Prod.mk.inj hrest
    exact Moves.refl hok (Settled.refl h)
  rename_i name
  split at hopen
  · obtain ⟨-, hrest⟩ := Prod.mk.inj (Option.some.inj hopen)
    obtain ⟨rfl, rfl⟩ := Prod.mk.inj hrest
    exact Moves.refl hok (Settled.refl h)
  rename_i hmany
  split at hopen
  · obtain ⟨-, hrest⟩ := Prod.mk.inj (Option.some.inj hopen)
    obtain ⟨rfl, rfl⟩ := Prod.mk.inj hrest
    exact Moves.refl hok (Settled.refl h)
  rename_i hover
  obtain ⟨⟨r, h₁⟩, hfile, hrest⟩ := Option.bind_eq_some_iff.mp hopen
  have hopens := openFile_spec hfile
    (((hfound name rfl).resolve_left hmany).resolve_left hover)
  cases r with
  | error retval =>
      obtain ⟨-, hrest⟩ := Prod.mk.inj (Option.some.inj hrest)
      obtain ⟨rfl, rfl⟩ := Prod.mk.inj hrest
      exact Moves.refl hok hopens
  | ok file =>
      obtain ⟨hnew, rfl⟩ := hopens
      obtain ⟨⟨fd, obj⟩, hid, hrest⟩ := Option.bind_eq_some_iff.mp hrest
      obtain ⟨hattach, hmoves⟩ := Moves.attach hok file (p.openFiles + 1) hid (Or.inr hnew)
        fun R _ hold => hold.open_ hnew
      have hfd := (getUnusedId_spec hok.map hid).1
      simp only at hrest
      rw [if_neg (by omega), hattach] at hrest
      obtain ⟨-, hrest⟩ := Prod.mk.inj (Option.some.inj hrest)
      obtain ⟨rfl, rfl⟩ := Prod.mk.inj hrest
      exact hmoves

/-- `kclose` drops the reference of the descriptor. -/
theorem Moves.kclose {fd : ℤ} (hok : ProcOk p) (hin : p.file fd ≠ 0 → 0 ≤ fd ∧ fd < 1024)
    (h : Files) : Moves p h { p with toProc := (Fs.kclose fd p.toProc).2 }
      (kcloseFiles fd p.toProc h) := by
  unfold Fs.kclose kcloseFiles
  by_cases hused : p.file fd = 0
  · rw [if_pos hused, if_pos hused]
    exact Moves.refl hok (Settled.refl h)
  · obtain ⟨hnonneg, hlt⟩ := hin hused
    lift fd to ℕ using hnonneg
    rw [if_neg hused, if_neg hused]
    have hdetach := fdDetach_eq (p := { p.toProc with openFiles := p.openFiles - 1 }) hused
    simp only [hdetach, Int.toNat_natCast]
    rw [if_neg (by omega)]
    exact Moves.detach hok (by omega) hused (p.openFiles - 1) h

/-- `kdup2` that does not come to attach the file changes nothing. -/
theorem Moves.kdup2 {oldfd newfd : ℤ} (hok : ProcOk p)
    (hnone : oldfd ≥ 1024 ∨ newfd ≥ 1024 ∨ overLimit p.toProc newfd ∨ p.file oldfd = 0 ∨
      p.file oldfd = p.file newfd ∨ (newfd < 0 ∧ p.file newfd = 0)) (h : Files) :
    Moves p h { p with toProc := (Fs.kdup2 oldfd newfd p.toProc).2 }
      (kdup2Files oldfd newfd p.toProc h) := by
  have hrefl := Moves.refl hok (Settled.refl h)
  unfold Fs.kdup2 kdup2Files
  by_cases hrange : oldfd ≥ 1024 ∨ newfd ≥ 1024
  · rw [if_pos hrange, if_pos hrange]
    exact hrefl
  rw [if_neg hrange, if_neg hrange]
  by_cases hover : overLimit p.toProc newfd
  · rw [if_pos hover, if_pos hover]
    exact hrefl
  rw [if_neg hover, if_neg hover]
  simp only
  by_cases hold : p.file oldfd = 0
  · rw [if_pos hold, if_pos hold]
    exact hrefl
  rw [if_neg hold, if_neg hold]
  by_cases hsame : p.file oldfd = p.file newfd
  · rw [if_pos hsame, if_pos hsame]
    exact hrefl
  rw [if_neg hsame, if_neg hsame]
  have hneg : newfd < 0 ∧ p.file newfd = 0 := by tauto
  -- `fd_attach` refuses the descriptor
  have hattach : fdAttach newfd p.toProc (p.file oldfd) = (-eINVAL, p.toProc) := if_pos hneg.1
  simp only [hneg.2, ne_eq, not_true_eq_false, if_false, hattach, eINVAL]
  exact hrefl

/-- `kfcntl(F_DUPFD)` counts the reference that it adds. -/
theorem Moves.kfcntl {fd cmd ret : ℤ} {fFlags : BitVec 32} (hok : ProcOk p)
    (hin : cmd = 0 → p.file fd ≠ 0 → fFlags &&& 3 ≠ 0 → 0 ≤ fd ∧ fd < 1024)
    (hcall : Fs.kfcntl fd cmd fFlags p.toProc = some (ret, q'))
    (hfiles : kfcntlFiles fd cmd fFlags p.toProc h = some h') :
    Moves p h { p with toProc := q' } h' := by
  by_cases hdup : Counted p.toProc (.kfcntl fd cmd fFlags)
  · obtain rfl := kfcntl_eq hdup hcall
    obtain rfl : h = h' := by
      unfold kfcntlFiles at hfiles
      simp only at hfiles
      split at hfiles
      · exact Option.some.inj hfiles
      rename_i hzero
      split at hfiles
      · exact Option.some.inj hfiles
      rename_i hflags
      rw [if_neg fun hcmd => (hdup hcmd).elim hzero hflags] at hfiles
      exact Option.some.inj hfiles
    exact Moves.refl hok (Settled.refl h)
  · simp only [Counted] at hdup
    obtain ⟨rfl, hused, hflags⟩ : cmd = 0 ∧ p.file fd ≠ 0 ∧ fFlags &&& 3 ≠ 0 := by tauto
    obtain ⟨hnonneg, hlt⟩ := hin rfl hused hflags
    lift fd to ℕ using hnonneg
    unfold Fs.kfcntl at hcall
    unfold kfcntlFiles at hfiles
    simp only [if_neg hused, if_neg hflags, if_true] at hcall hfiles
    simp only [show ¬ (0 : ℤ) = 1 by decide, show ¬ (0 : ℤ) = 2 by decide,
      show ¬ (0 : ℤ) = 3 by decide, show ¬ (0 : ℤ) = 4 by decide, if_false] at hcall
    obtain ⟨⟨retval, obj⟩, hid, hcall⟩ := Option.bind_eq_some_iff.mp hcall
    simp only [hid, Option.bind_eq_bind, Option.bind_some] at hfiles hcall
    by_cases hover : overLimit { p.toProc with pFdObj := obj } retval
    · rw [if_pos hover] at hcall hfiles
      obtain ⟨-, rfl⟩ := Prod.mk.inj (Option.some.inj hcall)
      obtain rfl := Option.some.inj hfiles
      obtain ⟨-, -, hmap, hall⟩ := getUnusedId_spec hok.map hid
      exact Moves.same hok hmap (fun j hj => ((hall j).mp hj).1) p.openFiles (Settled.refl h)
    · rw [if_neg hover] at hcall hfiles
      have hcount : ∀ R : BitVec 32 → ℕ, (∀ fp, R fp + 4096 < 2 ^ 32) →
          Accounts h (fun fp => R fp + procRefs p fp) → Accounts (h.incr (p.file fd))
            fun fp => R fp + procRefs p fp + if fp = p.file fd then 1 else 0 := by
        intro R hR hold
        have hpos := tableRefs_pos (p := p.toProc) (by omega : fd < 1024) hused
        have hle := procRefs_le p (p.file fd)
        have hlt := hR (p.file fd)
        refine hold.incr ?_ (by omega)
        unfold procRefs
        omega
      obtain ⟨hattach, hmoves⟩ := Moves.attach hok ⟨p.file fd, hused⟩ p.openFiles hid
        (Or.inl ⟨fd, by omega, rfl⟩) hcount
      rw [hattach] at hcall
      obtain ⟨-, rfl⟩ := Prod.mk.inj (Option.some.inj hcall)
      obtain rfl := Option.some.inj hfiles
      exact hmoves

end

end Shaunos.Fs
