import Shaunos.Common.RefCount
import Shaunos.Fs.FdTable

/-!
# Open files and the processes that refer to them

Reference: `Kernel/vfs.c` (`fget`, `vfs_open`, `vfs_open_dev`, `vfs_close`, `kopen`, `kclose`,
`kfcntl`, `kdup2`), `Kernel/ext2.c` (`ext2_close`), `Kernel/kthread.c` (`load_binary`,
`kcreate_process`, `kclose_proc`).

An open file is a `file_t` on the kernel heap with a counter `f_refcnt`. The table entries of every
process point to such files, and so does the current directory of every process. What each call does
to the table of one process is in `Shaunos.Fs.FdTable`; here the files and the other processes are
added.

What the file systems and the loader answer is an input of a call. `kzalloc` hands out memory that is
not in use, so a call with an answer that names a file in use does not happen.
-/

namespace Shaunos.Fs

open Pid RefCount

/-- All files that `kzalloc` handed out. -/
abbrev Files := Heap (BitVec 32)

/-! ## One file -/

/-- `fget`. -/
def fget (fp : BitVec 32) (h : Files) : Files := if fp = 0 then h.incr fp else h

/-- `f_ops->close`: `ext2_close`, and `tty_close` up to the vnode. -/
def fOpsClose (fp : BitVec 32) (h : Files) : Files :=
  let h :=
    if h.count fp > 0 then { h with count := Function.update h.count fp (h.count fp - 1) } else h
  if h.count fp = 0 then h.free fp else h

/-- `vfs_close`. -/
def vfsClose (fp : BitVec 32) (h : Files) : Files :=
  let h := h.decr fp
  if h.count fp = 0 then fOpsClose fp h else h

/-- How `vfs_open` ends. -/
inductive OpenResult where
  /-- There is no memory or no such directory. -/
  | noPath (retval : ℤ)
  /-- `mp_ops->open` fails and sets no file. -/
  | noFile (retval : ℤ)
  /-- The mode of the file does not allow the access. -/
  | noPermission (file : File)
  | opened (file : File)

/-- `vfs_open`, with what `*file` holds before the call. -/
def vfsOpen (r : OpenResult) (junk : BitVec 32) (h : Files) : Option (Except ℤ File × Files) :=
  match r with
  | .noPath retval => some (.error retval, h)
  | .noFile retval => some (.error retval, vfsClose junk h)
  | .noPermission file =>
      if h.live file.1 then none else some (.error (-1), vfsClose file.1 (h.open_ file.1))
  | .opened file => if h.live file.1 then none else some (.ok file, fget file.1 (h.open_ file.1))

/-- How `vfs_open_dev` ends. -/
inductive DevResult where
  /-- There is no such mount point, or no memory. -/
  | noPath (retval : ℤ)
  /-- The file is there, but the device does not open. -/
  | noDevice (retval : ℤ) (file : File)
  | opened (file : File)

/-- `vfs_open_dev`. -/
def vfsOpenDev (r : DevResult) (h : Files) : Option (Except ℤ File × Files) :=
  match r with
  | .noPath retval => some (.error retval, h)
  | .noDevice retval file => if h.live file.1 then none else some (.error retval, h.open_ file.1)
  | .opened file => if h.live file.1 then none else some (.ok file, h.open_ file.1)

/-- `vfs_create`. -/
def vfsCreate (r : Except ℤ File) (h : Files) : Option (Except ℤ File × Files) :=
  match r with
  | .error retval => some (.error retval, h)
  | .ok file => if h.live file.1 then none else some (.ok file, h.open_ file.1)

/-! ## The calls on one process -/

/-- The part of `kprocess_t` that refers to files. -/
structure Process extends Proc where
  pCurrCwd : BitVec 32

/-- What the mounted file systems answer to a `kopen`. -/
structure Mounts where
  openDev : List Char → BitVec 32 → DevResult
  hasRootv : Bool
  create : List Char → BitVec 32 → Except ℤ File
  openRoot : List Char → BitVec 32 → OpenResult
  openCwd : List Char → BitVec 32 → OpenResult

/-- The part of `kopen` that finds the file; `junk` is what the variable `file` holds before. -/
def openFile (mounts : Mounts) (name : List Char) (flag mode junk : BitVec 32) (h : Files) :
    Option (Except ℤ File × Files) :=
  if name.head? = some '/' then
    if ['d', 'e', 'v'] <+: name.dropWhile (· == '/') then vfsOpenDev (mounts.openDev name flag) h
    else if !mounts.hasRootv then some (.error (-eNODEV), h)
    else if flag &&& 0x200 ≠ 0 then vfsCreate (mounts.create name mode) h
    else vfsOpen (mounts.openRoot name flag) junk h
  else vfsOpen (mounts.openCwd name flag) junk h

/-- `kopen`. -/
def kopenFiles (mounts : Mounts) (path : Option (List Char)) (flag mode junk : BitVec 32) (p : Proc)
    (h : Files) : Option (ℤ × Proc × Files) :=
  match path with
  | none => some (-eINVAL, p, h)
  | some name =>
      if p.openFiles > 1024 then some (-eMFILE, p, h)
      else if overLimit p p.openFiles then some (-eNFILE, p, h)
      else do
        match ← openFile mounts name flag mode junk h with
        | (.error retval, h) => return (retval, p, h)
        | (.ok file, h) =>
            let (fd, obj) ← getUnusedId p.pFdObj
            let p := { p with pFdObj := obj }
            if fd ≥ 1024 then return (-eMFILE, p, vfsClose file.1 h)
            else
              let (ret, p) := fdAttach fd { p with openFiles := p.openFiles + 1 } file.1
              return (ret, p, h)

/-- What `kclose` does to the files. -/
def kcloseFiles (fd : ℤ) (p : Proc) (h : Files) : Files :=
  if p.file fd = 0 then h else vfsClose (p.file fd) h

/-- What `kdup2` does to the files. -/
def kdup2Files (oldfd newfd : ℤ) (p : Proc) (h : Files) : Files :=
  if oldfd ≥ 1024 ∨ newfd ≥ 1024 then h
  else if overLimit p newfd then h
  else
    let ofp := p.file oldfd
    let nfp := p.file newfd
    if ofp = 0 then h
    else if ofp = nfp then h
    else if nfp ≠ 0 then vfsClose nfp h
    else h

/-- What `kfcntl` does to the files. -/
def kfcntlFiles (fd cmd : ℤ) (fFlags : BitVec 32) (p : Proc) (h : Files) : Option Files :=
  let fp := p.file fd
  if fp = 0 then some h
  else if fFlags &&& 3 = 0 then some h
  else if cmd = 0 then do
    let (retval, obj) ← getUnusedId p.pFdObj
    if overLimit { p with pFdObj := obj } retval then return h else return h.incr fp
  else some h

/-! ## Processes -/

/-- What `load_binary` meets. -/
structure Binary where
  open_ : OpenResult
  /-- What the variable `file` holds before `vfs_open`. -/
  junk : BitVec 32
  /-- `file->f_vnode->v_mode & U_EXE`. -/
  mayExecute : Bool
  /-- `vfs_read` of the first 128 bytes. -/
  vfsRead : ℤ
  /-- `load_elf`. The shared libraries that it opens it closes again. -/
  loadElf : ℤ
  /-- What the variable `file` holds before each `vfs_open` that looks for a library where it is
  not. -/
  noLibrary : List (BitVec 32)

/-- `load_binary`. -/
def loadBinary (b : Binary) (p : Proc) (h : Files) : Option (ℤ × Proc × Files) := do
  match ← vfsOpen b.open_ b.junk h with
  | (.error _, h) => return (-2, p, h)
  | (.ok file, h) =>
      if !b.mayExecute then return (-eACCES, p, vfsClose file.1 h)
      else
        let (fd, obj) ← getUnusedId p.pFdObj
        let p := (fdAttach fd { p with pFdObj := obj } file.1).2
        let p := { p with openFiles := p.openFiles + 1 }
        let (retval, h) :=
          if b.vfsRead < 0 then (b.vfsRead, h)
          else (b.loadElf, b.noLibrary.foldl (fun h junk => vfsClose junk h) h)
        let h := vfsClose file.1 h
        let p := (fdDetach fd p).2
        return (retval,
          { p with pFdObj := putId p.pFdObj fd, openFiles := p.openFiles - 1 }, h)

/-- What `kcreate_process` meets. -/
structure Image where
  /-- The memory around the page of the new table. -/
  beyond : ℤ → BitVec 32
  /-- The memory behind the new id map. -/
  beyondMap : ℕ → BitVec 32
  /-- The `vfs_open` of the root directory for a process without a parent. -/
  root : OpenResult
  setupArgEnv : ℤ
  binary : Binary

/-- All processes, by their ids, with the files. -/
structure Sys where
  files : Files
  /-- `sys_proc`. -/
  sysProc : ℕ → Option Process
  kpidObj : KidObject

/-- The part of `kcreate_process` that gives the child the descriptors of its parent. The copy runs
out of the page of the table when `open_files` does not fit. -/
def inherit (im : Image) (parent : Process) (h : Files) : Option (Process × Files) :=
  if parent.openFiles < 0 ∨ 1024 < parent.openFiles then none
  else
    let n := parent.openFiles.toNat
    let child := freshProc im.beyond im.beyondMap
    let file := fun fd : ℤ => if 0 ≤ fd ∧ fd < n then parent.file fd else child.file fd
    some ({ child with
        file := file
        pFdObj := kidDup child.pFdObj parent.pFdObj
        openFiles := parent.openFiles
        pCurrCwd := parent.pCurrCwd },
      ((List.range n).map fun i : ℕ => file i).foldl Heap.incr (h.incr parent.pCurrCwd))

/-- `kcreate_process`. -/
def kcreateProcess (parent : Option ℕ) (im : Image) (s : Sys) : Option (ℤ × Sys) := do
  let (pid, kpidObj) ← getUnusedId s.kpidObj
  let loadOut (retval : ℤ) (h : Files) : ℤ × Sys :=
    (retval, { s with files := h, kpidObj := putId kpidObj pid })
  let start (p : Process) (h : Files) : Option (ℤ × Sys) :=
    if im.setupArgEnv < 0 then some (loadOut im.setupArgEnv h)
    else do
      let (retval, proc, h) ← loadBinary im.binary p.toProc h
      if retval < 0 then return loadOut retval h
      else
        let p := { proc with pCurrCwd := p.pCurrCwd }
        return (pid, { s with
          files := h, sysProc := Function.update s.sysProc pid (some p), kpidObj := kpidObj })
  match parent with
  | none =>
      match ← vfsOpen im.root 0 s.files with
      | (.error retval, h) => return loadOut retval h
      | (.ok cwd, h) => start { freshProc im.beyond im.beyondMap with pCurrCwd := cwd.1 } h
  | some ppid =>
      let p ← s.sysProc ppid
      let (child, h) ← inherit im p s.files
      start child h

/-- The files that `kclose_proc` closes for the descriptors, in its order. -/
def closedByProc (p : Process) : List (BitVec 32) :=
  (List.range p.openFiles.toNat).map fun i : ℕ => p.file i

/-- `kclose_proc`. -/
def kcloseProc (pid : ℕ) (s : Sys) : Option Sys := do
  let p ← s.sysProc pid
  let h := (closedByProc p).foldl (fun h fp => vfsClose fp h) s.files
  let h := if p.pCurrCwd ≠ 0 then vfsClose p.pCurrCwd h else h
  return { files := h, sysProc := Function.update s.sysProc pid none, kpidObj := putId s.kpidObj pid }

/-! ## The references of a process -/

/-- How many descriptors of the table map to a file. -/
def tableRefs (p : Proc) (fp : BitVec 32) : ℕ :=
  if fp = 0 then 0 else countBelow 1024 fun fd => p.file fd = fp

/-- One if the file is the current directory. -/
def cwdRefs (p : Process) (fp : BitVec 32) : ℕ := if fp ≠ 0 ∧ p.pCurrCwd = fp then 1 else 0

/-- No descriptor from `open_files` on is in use. -/
def Covered (p : Proc) : Prop := ∀ fd : ℕ, fd < 1024 → p.file fd ≠ 0 → (fd : ℤ) < p.openFiles

instance (p : Proc) : Decidable (Covered p) :=
  Nat.decidableBallLT 1024 fun fd _ => p.file (fd : ℕ) ≠ 0 → (fd : ℤ) < p.openFiles

/-- The descriptors in use are exactly the first `open_files` ones. -/
def Contiguous (p : Proc) : Prop :=
  p.openFiles ≤ 1024 ∧ ∀ fd : ℕ, fd < 1024 → (p.file fd ≠ 0 ↔ (fd : ℤ) < p.openFiles)

instance (p : Proc) : Decidable (Contiguous p) := inferInstanceAs (Decidable (_ ∧ _))

section

variable {h : Files} {fp : BitVec 32} {p : Proc} {c : Process}

@[simp] theorem tableRefs_zero (p : Proc) : tableRefs p 0 = 0 := if_pos rfl

theorem tableRefs_le (p : Proc) (fp : BitVec 32) : tableRefs p fp ≤ 1024 := by
  unfold tableRefs
  split
  · omega
  · exact countBelow_le _ _

/-- Change one table entry. -/
theorem tableRefs_update {fd : ℕ} (hfd : fd < 1024) (v : BitVec 32) (p : Proc) (fp : BitVec 32) :
    tableRefs { p with file := Function.update p.file fd v } fp
        + (if fp ≠ 0 ∧ p.file fd = fp then 1 else 0)
      = tableRefs p fp + if fp ≠ 0 ∧ v = fp then 1 else 0 := by
  by_cases h0 : fp = 0
  · subst h0
    simp [tableRefs]
  have hchange := countBelow_change (p := fun j : ℕ => p.file j = fp)
    (q := fun j : ℕ => Function.update p.file (fd : ℤ) v (j : ℤ) = fp) hfd fun j _ hj => by
      rw [Function.update_of_ne (by exact_mod_cast hj)]
  simp only [Function.update_self] at hchange
  unfold tableRefs
  rw [if_neg h0, if_neg h0]
  simpa only [ne_eq, h0, not_false_eq_true, true_and] using hchange

/-- Only the table entries matter. -/
theorem tableRefs_congr {p' : Proc} (heq : ∀ fd : ℕ, fd < 1024 → p'.file fd = p.file fd)
    (fp : BitVec 32) : tableRefs p' fp = tableRefs p fp := by
  unfold tableRefs
  split
  · rfl
  · exact countBelow_congr fun fd hfd => by rw [heq fd hfd]

theorem tableRefs_pos_iff : 0 < tableRefs p fp ↔ fp ≠ 0 ∧ ∃ fd : ℕ, fd < 1024 ∧ p.file fd = fp := by
  unfold tableRefs
  by_cases h0 : fp = 0
  · simp [h0]
  · rw [if_neg h0, countBelow_pos_iff]
    exact (and_iff_right h0).symm

/-- A file that a descriptor maps to has a reference. -/
theorem tableRefs_pos {fd : ℕ} (hfd : fd < 1024) (hne : p.file fd ≠ 0) : 0 < tableRefs p (p.file fd) :=
  tableRefs_pos_iff.mpr ⟨hne, fd, hfd, rfl⟩

theorem cwdRefs_eq (h0 : fp ≠ 0 ∨ c.pCurrCwd ≠ 0) :
    cwdRefs c fp = if c.pCurrCwd = fp then 1 else 0 := by
  refine if_congr (and_iff_right_of_imp fun heq => ?_) rfl rfl
  rcases h0 with h0 | h0
  · exact h0
  · exact heq ▸ h0

/-- `vfs_close` drops one reference. -/
theorem vfsClose_eq (fp : BitVec 32) (h : Files) : vfsClose fp h = h.drop fp := by
  unfold vfsClose Heap.drop
  by_cases hzero : (h.decr fp).count fp = 0
  · simp [fOpsClose, hzero]
  · simp [hzero]

/-- `vfs_open` of a file that is there does not count it a second time. -/
theorem fget_eq (file : File) (h : Files) : fget file.1 h = h := if_neg file.2

end

end Shaunos.Fs
