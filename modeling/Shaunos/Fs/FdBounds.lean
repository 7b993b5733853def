import Shaunos.Fs.FdTable

/-!
# Descriptors of user programs

Reference: `Kernel/vfs.c` (`kread`, `kwrite`, `klseek`, `kfstat`, `kclose`, `kioctl`, `kfcntl`,
`kdup2`), `Kernel/kthread.c` (`fd_attach`, `fd_detach`, `kisatty`), `Kernel/syscall.c`.

A descriptor is an index of a table with 1024 entries. The functions here write down which entries
they look at, for every integer that a program can put in the register. What is behind an entry (the
flags of the file, its operations, the memory of the program) is an input. The thread is one of a
process, as the threads of programs are.

* `Access.kclose_eq`, `Access.kfcntl_eq`, `Access.kdup2_eq` — the results are those of the functions
  without the record of entries;
* `fdCall_safe_iff` — the descriptors with which the calls stay inside the table and return an error.
-/

namespace Shaunos.Fs

def eNOMEM : ℤ := 12
def eNOTTY : ℤ := 25
def eSPIPE : ℤ := 29
def eOPNOTSUPP : ℤ := 95

/-! ## The table -/

/-- A process, and the entries of its table that were used. -/
structure Traced where
  proc : Proc
  seen : List ℤ

/-- The calls on the table. There is no result when a call does not return. -/
abbrev TableM := StateT Traced Option

/-- `proc->file[fd]`. -/
def fdFile (fd : ℤ) : TableM (BitVec 32) := fun s =>
  some (s.proc.file fd, { s with seen := fd :: s.seen })

/-- `proc->file[fd] = file`. -/
def setFdFile (fd : ℤ) (file : BitVec 32) : TableM Unit := fun s =>
  some ((), { proc := { s.proc with file := Function.update s.proc.file fd file }, seen := fd :: s.seen })

/-- Other fields of the process. -/
def theProc : TableM Proc := fun s => some (s.proc, s)

def setOpenFiles (f : ℤ → ℤ) : TableM Unit := fun s =>
  some ((), { s with proc := { s.proc with openFiles := f s.proc.openFiles } })

def setFdObj (f : Pid.KidObject → Pid.KidObject) : TableM Unit := fun s =>
  some ((), { s with proc := { s.proc with pFdObj := f s.proc.pFdObj } })

/-- `get_unused_id`. -/
def unusedFd : TableM ℕ := fun s => do
  let (fd, obj) ← Pid.getUnusedId s.proc.pFdObj
  return (fd, { s with proc := { s.proc with pFdObj := obj } })

section

variable {α β : Type} (a : α) (m : TableM α) (f : α → TableM β) (s : Traced)

@[simp] theorem pure_apply : (pure a : TableM α) s = some (a, s) := rfl

@[simp] theorem bind_apply : (m >>= f) s = (m s).bind fun r => f r.1 r.2 := rfl

@[simp] theorem if_apply (c : Prop) [Decidable c] (m' : TableM α) :
    (if c then m else m') s = if c then m s else m' s := by
  split <;> rfl

@[simp] theorem fdFile_apply (fd : ℤ) :
    fdFile fd s = some (s.proc.file fd, { s with seen := fd :: s.seen }) := rfl

@[simp] theorem setFdFile_apply (fd : ℤ) (file : BitVec 32) :
    setFdFile fd file s = some ((),
      { proc := { s.proc with file := Function.update s.proc.file fd file }, seen := fd :: s.seen }) :=
  rfl

@[simp] theorem theProc_apply : theProc s = some (s.proc, s) := rfl

@[simp] theorem setOpenFiles_apply (g : ℤ → ℤ) : setOpenFiles g s
    = some ((), { s with proc := { s.proc with openFiles := g s.proc.openFiles } }) := rfl

@[simp] theorem setFdObj_apply (g : Pid.KidObject → Pid.KidObject) : setFdObj g s
    = some ((), { s with proc := { s.proc with pFdObj := g s.proc.pFdObj } }) := rfl

end

/-! ## The calls -/

namespace Access

/-- `fd_attach`. -/
def fdAttach (fd : ℤ) (file : BitVec 32) : TableM ℤ := do
  if fd < 0 then return -eINVAL
  else if fd ≥ 1024 then return -eNFILE
  else if (← fdFile fd) ≠ 0 then return -eBADF
  else
    setFdFile fd file
    return fd

/-- `fd_detach`. -/
def fdDetach (fd : ℤ) : TableM ℤ := do
  if fd < 0 then return -eINVAL
  else if (← fdFile fd) = 0 then return -eBADF
  else
    setFdFile fd 0
    return 0

/-- What a call meets behind the entry. -/
structure Io where
  /-- `file->f_flags`. -/
  fFlags : BitVec 32
  /-- The buffer is allocated. -/
  alloc : Bool
  /-- The result of the operation of the file, if it has it. -/
  op : Option ℤ
  /-- The result of `copy_from_user`. -/
  copyIn : ℤ
  /-- The result of `copy_to_user`. -/
  copyOut : ℤ
  /-- `S_ISREG(file->f_type)`. -/
  isReg : Bool
  /-- `S_ISCHR(file->f_type)`. -/
  isChr : Bool

/-- A call that starts with the entry of its descriptor. -/
def withFile (fd : ℤ) (rest : BitVec 32 → TableM ℤ) : TableM ℤ := do
  let file ← fdFile fd
  if file = 0 then return -eBADF else rest file

/-- `kread`. -/
def kread (fd : ℤ) (len : ℤ) (io : Io) : TableM ℤ :=
  withFile fd fun _ => do
    if io.fFlags &&& 1 = 0 then return -eACCES
    else if len > 2 ^ 31 - 1 then return -eINVAL
    else if !io.alloc then return -eNOMEM
    else if io.op.getD (-eNOSYS) < 0 then return io.op.getD (-eNOSYS)
    else return io.copyOut

/-- `kwrite`. -/
def kwrite (fd : ℤ) (io : Io) : TableM ℤ :=
  withFile fd fun _ => do
    if io.fFlags &&& 2 = 0 then return -eACCES
    else if !io.alloc then return -eNOMEM
    else if io.copyIn < 0 then return io.copyIn
    else return io.op.getD (-eNOSYS)

/-- `kfstat`. -/
def kfstat (fd : ℤ) (io : Io) : TableM ℤ :=
  withFile fd fun _ => return min 0 (io.op.getD (-eNOSYS))

/-- `klseek`. -/
def klseek (fd : ℤ) (io : Io) : TableM ℤ :=
  withFile fd fun _ => if !io.isReg then return -eSPIPE else return io.op.getD (-eNOSYS)

/-- `kclose`. -/
def kclose (fd : ℤ) : TableM ℤ :=
  withFile fd fun _ => do
    setOpenFiles (· - 1)
    if (← fdDetach fd) < 0 then return -eBADF
    else
      setFdObj (Pid.putId · fd.toNat)
      return 0

/-- `kioctl`. `FIOSETOWN` and `FIOGETOWN` are not passed on. -/
def kioctl (fd : ℤ) (cmd : BitVec 32) (io : Io) : TableM ℤ :=
  withFile fd fun _ =>
    if io.fFlags &&& 3 = 0 then return -eBADF
    else if cmd = 0x8004667C#32 ∨ cmd = 0x4004667B#32 then return -eNOSYS
    else return io.op.getD (-eNOSYS)

/-- `kfcntl`. -/
def kfcntl (fd cmd : ℤ) (io : Io) : TableM ℤ :=
  withFile fd fun fp => do
    if io.fFlags &&& 3 = 0 then return -eACCES
    else if cmd = 1 then return (io.fFlags &&& 1).toInt
    else if cmd = 2 then return 0
    else if cmd = 3 then return (io.fFlags &&& ~~~3).toInt
    else if cmd = 4 then return 0
    else if cmd = 0 then
      let retval ← unusedFd
      if overLimit (← theProc) retval then return -eMFILE
      else
        let _ ← fdAttach retval fp
        return retval
    else return -eNOSYS

/-- `kdup2`. -/
def kdup2 (oldfd newfd : ℤ) : TableM ℤ := do
  if oldfd ≥ 1024 ∨ newfd ≥ 1024 then return -eINVAL
  else if overLimit (← theProc) newfd then return -eMFILE
  else
    let ofp ← fdFile oldfd
    let nfp ← fdFile newfd
    if ofp = 0 then return -eBADF
    else if ofp = nfp then return newfd
    else
      if nfp ≠ 0 then
        let _ ← fdDetach newfd
        setOpenFiles (· - 1)
      let ret ← fdAttach newfd ofp
      if ret < 0 then return ret
      else
        setFdObj (Pid.resvId · newfd.toNat)
        setOpenFiles (· + 1)
        return newfd

/-- `kisatty`. -/
def kisatty (fd : ℤ) (io : Io) : TableM ℤ :=
  withFile fd fun _ => if io.isChr then return 1 else return 0

/-! ## System calls -/

/-- The registers with the arguments of a system call. -/
structure Regs where
  ebx : BitVec 32
  ecx : BitVec 32
  edx : BitVec 32

/-- `sys_read`. -/
def sysRead (regs : Regs) (io : Io) : TableM ℤ :=
  let fd := regs.ebx.toInt
  if fd < 0 then return -eINVAL
  else if regs.ecx = 0 then return -eINVAL
  else if regs.edx > 0x7FFFFFFF#32 then return -eINVAL
  else if regs.edx = 0 then return 0
  else kread fd regs.edx.toInt io

/-- `sys_write`. -/
def sysWrite (regs : Regs) (io : Io) : TableM ℤ :=
  let fd := regs.ebx.toInt
  if fd < 0 then return -eINVAL
  else if regs.ecx = 0 then return -eINVAL
  else if regs.edx > 0x7FFFFFFF#32 then return -eINVAL
  else if regs.edx = 0 then return 0
  else kwrite fd io

/-- `sys_close`. The register is compared with 0 as an unsigned number. -/
def sysClose (regs : Regs) : TableM ℤ := kclose regs.ecx.toInt

/-- `sys_fstat`. -/
def sysFstat (regs : Regs) (io : Io) : TableM ℤ := do
  let fd := regs.ebx.toInt
  if fd < 0 then return -eINVAL
  else if regs.ecx = 0 then return -eINVAL
  else
    let ret ← kfstat fd io
    if ret < 0 then return ret else return min 0 io.copyOut

/-- `sys_lseek`. -/
def sysLseek (regs : Regs) (io : Io) : TableM ℤ :=
  let fd := regs.ebx.toInt
  if fd < 0 then return -eINVAL
  else if regs.edx ≠ 0 ∧ regs.edx ≠ 1 ∧ regs.edx ≠ 2 then return -eINVAL
  else klseek fd io

/-- `IOCPARM_LEN`. -/
def iocparmLen (cmd : BitVec 32) : ℕ := (cmd >>> 16 &&& 0x1FFF#32).toNat

/-- `sys_ioctl`. -/
def sysIoctl (regs : Regs) (io : Io) : TableM ℤ := do
  let fd := regs.ebx.toInt
  let cmd := regs.ecx
  if fd < 0 then return -eINVAL
  else if iocparmLen cmd > 4096 then return -eNOTTY
  else if cmd &&& 0x80000000#32 ≠ 0 ∧ iocparmLen cmd ≠ 0 ∧ io.copyIn < 0 then return io.copyIn
  else
    let retval ← kioctl fd cmd io
    if retval = 0 ∧ cmd &&& 0x40000000#32 ≠ 0 ∧ iocparmLen cmd ≠ 0 then return io.copyOut
    else return retval

/-- `sys_fcntl`. -/
def sysFcntl (regs : Regs) (io : Io) : TableM ℤ :=
  let fd := regs.ebx.toInt
  if fd < 0 ∨ fd > 1024 then return -eINVAL
  else kfcntl fd regs.ecx.toInt io

/-- `sys_dup2`. -/
def sysDup2 (regs : Regs) : TableM ℤ :=
  let newfd := regs.ecx.toInt
  let oldfd := regs.ebx.toInt
  if oldfd < 0 ∨ newfd < 0 then return -eINVAL
  else if newfd = oldfd then return 0
  else kdup2 oldfd newfd

/-- `sys_isatty`. -/
def sysIsatty (regs : Regs) (io : Io) : TableM ℤ := kisatty regs.ecx.toInt io

end Access

/-! ## Without the record of entries -/

/-- The result of a call and the process after it. -/
def outcome {α : Type} (m : TableM α) (p : Proc) : Option (α × Proc) :=
  (m ⟨p, []⟩).map fun r => (r.1, r.2.proc)

namespace Access

theorem fdAttach_apply (fd : ℤ) (file : BitVec 32) (s : Traced) :
    ∃ seen, fdAttach fd file s = some ((Fs.fdAttach fd s.proc file).1,
      ⟨(Fs.fdAttach fd s.proc file).2, seen⟩) := by
  unfold fdAttach Fs.fdAttach
  simp only [if_apply, bind_apply, pure_apply, fdFile_apply, Option.bind_some, setFdFile_apply]
  split_ifs
  all_goals exact ⟨_, rfl⟩

theorem fdDetach_apply (fd : ℤ) (s : Traced) :
    ∃ seen, fdDetach fd s = some ((Fs.fdDetach fd s.proc).1,
      ⟨(Fs.fdDetach fd s.proc).2, seen⟩) := by
  unfold fdDetach Fs.fdDetach
  simp only [if_apply, bind_apply, pure_apply, fdFile_apply, Option.bind_some, setFdFile_apply]
  split_ifs
  all_goals exact ⟨_, rfl⟩

theorem kclose_eq (fd : ℤ) (p : Proc) : outcome (kclose fd) p = some (Fs.kclose fd p) := by
  unfold outcome kclose withFile Fs.kclose
  simp only [if_apply, bind_apply, pure_apply, fdFile_apply, Option.bind_some, setOpenFiles_apply]
  obtain ⟨seen, hdetach⟩ := fdDetach_apply fd ⟨{ p with openFiles := p.openFiles - 1 }, [fd]⟩
  simp only [hdetach, Option.bind_some, setFdObj_apply]
  split_ifs <;> rfl

theorem kfcntl_eq (fd cmd : ℤ) (io : Io) (p : Proc) :
    outcome (kfcntl fd cmd io) p = Fs.kfcntl fd cmd io.fFlags p := by
  unfold outcome kfcntl withFile Fs.kfcntl
  simp only [if_apply, bind_apply, pure_apply, fdFile_apply, Option.bind_some, unusedFd, theProc_apply,
    Option.bind_eq_bind]
  split_ifs
  · rfl
  · rfl
  · rfl
  · rfl
  · rfl
  · rfl
  · cases hid : Pid.getUnusedId p.pFdObj with
    | none => rfl
    | some r =>
        obtain ⟨seen, hattach⟩ := fdAttach_apply r.1 (p.file fd) ⟨{ p with pFdObj := r.2 }, [fd]⟩
        simp only [Option.bind_some, Option.pure_def, hattach]
        split_ifs <;> rfl
  · rfl

theorem kdup2_eq (oldfd newfd : ℤ) (p : Proc) :
    outcome (kdup2 oldfd newfd) p = some (Fs.kdup2 oldfd newfd p) := by
  unfold outcome kdup2 Fs.kdup2
  simp only [if_apply, bind_apply, pure_apply, fdFile_apply, Option.bind_some, theProc_apply,
    setOpenFiles_apply, setFdObj_apply]
  obtain ⟨seen, hdetach⟩ := fdDetach_apply newfd ⟨p, [newfd, oldfd]⟩
  obtain ⟨seen₁, hattach₁⟩ := fdAttach_apply newfd (p.file oldfd)
    ⟨{ (Fs.fdDetach newfd p).2 with openFiles := (Fs.fdDetach newfd p).2.openFiles - 1 }, seen⟩
  obtain ⟨seen₂, hattach₂⟩ := fdAttach_apply newfd (p.file oldfd) ⟨p, [newfd, oldfd]⟩
  simp only [hdetach, Option.bind_some, hattach₁, hattach₂]
  split_ifs <;> rfl

end Access

/-! ## Entries that are looked at -/

/-- Entries stay on record. -/
def Grows {α : Type} (m : TableM α) : Prop :=
  ∀ s r s', m s = some (r, s') → s.seen ⊆ s'.seen

section

variable {α β : Type} {m m' : TableM α} {f : α → TableM β}

theorem grows_pure (a : α) : Grows (pure a : TableM α) := by
  intro s r s' h
  obtain ⟨-, rfl⟩ := Prod.mk.inj (Option.some.inj h)
  exact List.Subset.refl _

theorem Grows.bind (hm : Grows m) (hf : ∀ a, Grows (f a)) : Grows (m >>= f) := by
  intro s r s' h
  obtain ⟨⟨a, s₁⟩, h₁, h₂⟩ := Option.bind_eq_some_iff.mp h
  exact List.Subset.trans (hm s a s₁ h₁) (hf a s₁ r s' h₂)

theorem Grows.ite {c : Prop} [Decidable c] (hm : Grows m) (hm' : Grows m') :
    Grows (if c then m else m') := by
  split
  · exact hm
  · exact hm'

theorem grows_fdFile (fd : ℤ) : Grows (fdFile fd) := by
  intro s r s' h
  obtain ⟨-, rfl⟩ := Prod.mk.inj (Option.some.inj h)
  exact List.subset_cons_self _ _

theorem grows_setFdFile (fd : ℤ) (file : BitVec 32) : Grows (setFdFile fd file) := by
  intro s r s' h
  obtain ⟨-, rfl⟩ := Prod.mk.inj (Option.some.inj h)
  exact List.subset_cons_self _ _

theorem grows_theProc : Grows theProc := by
  intro s r s' h
  obtain ⟨-, rfl⟩ := Prod.mk.inj (Option.some.inj h)
  exact List.Subset.refl _

theorem grows_setOpenFiles (g : ℤ → ℤ) : Grows (setOpenFiles g) := by
  intro s r s' h
  obtain ⟨-, rfl⟩ := Prod.mk.inj (Option.some.inj h)
  exact List.Subset.refl _

theorem grows_setFdObj (g : Pid.KidObject → Pid.KidObject) : Grows (setFdObj g) := by
  intro s r s' h
  obtain ⟨-, rfl⟩ := Prod.mk.inj (Option.some.inj h)
  exact List.Subset.refl _

theorem grows_unusedFd : Grows unusedFd := by
  intro s r s' h
  obtain ⟨⟨fd, obj⟩, -, h⟩ := Option.bind_eq_some_iff.mp h
  obtain ⟨-, rfl⟩ := Prod.mk.inj (Option.some.inj h)
  exact List.Subset.refl _

end

namespace Access

theorem grows_fdAttach (fd : ℤ) (file : BitVec 32) : Grows (fdAttach fd file) :=
  .ite (grows_pure _) (.ite (grows_pure _) ((grows_fdFile fd).bind fun _ => .ite (grows_pure _)
    ((grows_setFdFile fd file).bind fun _ => grows_pure _)))

theorem grows_fdDetach (fd : ℤ) : Grows (fdDetach fd) :=
  .ite (grows_pure _) ((grows_fdFile fd).bind fun _ => .ite (grows_pure _)
    ((grows_setFdFile fd 0).bind fun _ => grows_pure _))

end Access

/-! ## Which descriptors are safe -/

/-- The entries in use lie in the table, and the call returns an error and leaves the process as it
was. -/
def Safe (p : Proc) (m : TableM ℤ) : Prop :=
  ∃ ret s', m ⟨p, []⟩ = some (ret, s') ∧ (∀ fd ∈ s'.seen, 0 ≤ fd ∧ fd < 1024) ∧ ret < 0 ∧ s'.proc = p

/-- The index of an entry. -/
def InTable (fd : ℤ) : Prop := 0 ≤ fd ∧ fd < 1024

/-- A number that is no descriptor of an open file. -/
def BadFd (p : Proc) (fd : ℤ) : Prop := fd < 0 ∨ 1024 ≤ fd ∨ p.file fd = 0

section

variable {p : Proc} {fd ret : ℤ} {m : TableM ℤ} {rest : BitVec 32 → TableM ℤ} {post : ℤ → TableM ℤ}

theorem safe_pure : Safe p (pure ret) ↔ ret < 0 := by
  constructor
  · rintro ⟨r, s', h, -, hneg, -⟩
    obtain ⟨rfl, -⟩ := Prod.mk.inj (Option.some.inj h)
    exact hneg
  · intro hneg
    exact ⟨ret, ⟨p, []⟩, rfl, fun fd hfd => absurd hfd List.not_mem_nil, hneg, rfl⟩

/-- A call that starts with the entry of its descriptor, and what is done with its result. -/
theorem safe_withFile_bind_iff (hbad : BadFd p fd) (hrest : ∀ file, Grows (rest file))
    (hgrow : ∀ r, Grows (post r)) (hpost : post (-eBADF) = pure (-eBADF)) :
    Safe p (Access.withFile fd rest >>= post) ↔ InTable fd := by
  constructor
  · rintro ⟨ret, s', h, hseen, -⟩
    obtain ⟨⟨r, s₁⟩, h₁, h₂⟩ := Option.bind_eq_some_iff.mp h
    have hmem : fd ∈ s₁.seen := by
      simp only [Access.withFile, bind_apply, fdFile_apply, Option.bind_some] at h₁
      exact Grows.ite (grows_pure _) (hrest _) _ _ _ h₁ List.mem_cons_self
    exact hseen fd (hgrow r s₁ ret s' h₂ hmem)
  · intro hin
    have hclosed : p.file fd = 0 := by
      rcases hbad with hneg | hbig | hclosed
      · exact absurd hin.1 (by omega)
      · exact absurd hin.2 (by omega)
      · exact hclosed
    refine ⟨-eBADF, ⟨p, [fd]⟩, ?_, fun i hi => ?_, by decide, rfl⟩
    · simp [Access.withFile, hclosed, hpost]
    · obtain rfl := List.mem_singleton.mp hi
      exact hin

theorem safe_withFile_iff (hbad : BadFd p fd) (hrest : ∀ file, Grows (rest file)) :
    Safe p (Access.withFile fd rest) ↔ InTable fd := by
  have h := safe_withFile_bind_iff hbad hrest (fun r => grows_pure r) rfl
  rwa [bind_pure] at h

end

/-! ### The functions -/

/-- The functions with a descriptor, with what decides about it. -/
inductive FdCall where
  | kread (fd len : ℤ)
  | kwrite (fd : ℤ)
  | kclose (fd : ℤ)
  | kfstat (fd : ℤ)
  | klseek (fd : ℤ)
  | kioctl (fd : ℤ) (cmd : BitVec 32)
  | kfcntl (fd cmd : ℤ)
  | kdup2 (oldfd newfd : ℤ)
  | kisatty (fd : ℤ)

def FdCall.run (io : Access.Io) : FdCall → TableM ℤ
  | .kread fd len => Access.kread fd len io
  | .kwrite fd => Access.kwrite fd io
  | .kclose fd => Access.kclose fd
  | .kfstat fd => Access.kfstat fd io
  | .klseek fd => Access.klseek fd io
  | .kioctl fd cmd => Access.kioctl fd cmd io
  | .kfcntl fd cmd => Access.kfcntl fd cmd io
  | .kdup2 oldfd newfd => Access.kdup2 oldfd newfd
  | .kisatty fd => Access.kisatty fd io

/-- The call is made with a number that is no descriptor. For the second argument of `kdup2` a
closed one is in order. -/
def FdCall.Bad (p : Proc) : FdCall → Prop
  | .kread fd _ | .kwrite fd | .kclose fd | .kfstat fd | .klseek fd | .kioctl fd _ | .kfcntl fd _
  | .kisatty fd => BadFd p fd
  | .kdup2 oldfd newfd => BadFd p oldfd ∨ ¬ InTable newfd

/-- The descriptor is in the table, or `kdup2` notices that one of its arguments is not. -/
def FdCall.Fits (p : Proc) : FdCall → Prop
  | .kread fd _ | .kwrite fd | .kclose fd | .kfstat fd | .klseek fd | .kioctl fd _ | .kfcntl fd _
  | .kisatty fd => InTable fd
  | .kdup2 oldfd newfd =>
      1024 ≤ oldfd ∨ 1024 ≤ newfd ∨ overLimit p newfd ∨ (0 ≤ oldfd ∧ 0 ≤ newfd)

section

variable {p : Proc} {io : Access.Io} {fd len cmd oldfd newfd : ℤ} {regs : Access.Regs}
  {post : ℤ → TableM ℤ}

open Access

theorem safe_kdup2_iff (hbad : BadFd p oldfd ∨ ¬ InTable newfd) :
    Safe p (Access.kdup2 oldfd newfd) ↔ (FdCall.kdup2 oldfd newfd).Fits p := by
  unfold Access.kdup2 FdCall.Fits
  by_cases hbig : oldfd ≥ 1024 ∨ newfd ≥ 1024
  · rw [if_pos hbig, safe_pure]
    exact iff_of_true (by decide) (by omega)
  rw [if_neg hbig]
  change Safe p (if overLimit p newfd then pure (-eMFILE) else _) ↔ _
  by_cases hlimit : overLimit p newfd
  · rw [if_pos hlimit, safe_pure]
    exact iff_of_true (by decide) (Or.inr (Or.inr (Or.inl hlimit)))
  rw [if_neg hlimit]
  constructor
  · -- both entries are looked at
    rintro ⟨ret, s', h, hseen, -⟩
    simp only [bind_apply (fdFile _), fdFile_apply, Option.bind_some] at h
    have hset : ∀ ret : ℤ, Grows (do
        if ret < 0 then return ret
        else
          setFdObj (Pid.resvId · newfd.toNat)
          setOpenFiles (· + 1)
          return newfd) := fun ret =>
      .ite (grows_pure _) ((grows_setFdObj _).bind fun _ => (grows_setOpenFiles _).bind fun _ =>
        grows_pure _)
    have hrest := Grows.ite (grows_pure _) (.ite (grows_pure _) (.ite
      ((grows_fdDetach newfd).bind fun _ => (grows_setOpenFiles _).bind fun _ =>
        (grows_fdAttach newfd _).bind hset) ((grows_fdAttach newfd _).bind hset))) _ _ _ h
    have hold := hseen oldfd (hrest (by simp))
    have hnew := hseen newfd (hrest (by simp))
    exact Or.inr (Or.inr (Or.inr ⟨hold.1, hnew.1⟩))
  · intro hfits
    obtain ⟨hold, hnew⟩ : 0 ≤ oldfd ∧ 0 ≤ newfd := by
      rcases hfits with h | h | h | h
      · omega
      · omega
      · exact absurd h hlimit
      · exact h
    have hclosed : p.file oldfd = 0 := by
      rcases hbad with (h | h | h) | h
      · omega
      · omega
      · exact h
      · exact absurd ⟨hnew, by omega⟩ h
    refine ⟨-eBADF, ⟨p, [newfd, oldfd]⟩, ?_, fun i hi => ?_, by decide, rfl⟩
    · simp [hclosed]
    · simp only [List.mem_cons, List.not_mem_nil, or_false] at hi
      omega

theorem safe_fdCall_iff (c : FdCall) (hbad : c.Bad p) : Safe p (c.run io) ↔ c.Fits p := by
  cases c with
  | kread fd len =>
      exact safe_withFile_iff hbad fun _ => .ite (grows_pure _) (.ite (grows_pure _)
        (.ite (grows_pure _) (.ite (grows_pure _) (grows_pure _))))
  | kwrite fd =>
      exact safe_withFile_iff hbad fun _ => .ite (grows_pure _) (.ite (grows_pure _)
        (.ite (grows_pure _) (grows_pure _)))
  | kclose fd =>
      exact safe_withFile_iff hbad fun _ => (grows_setOpenFiles _).bind fun _ =>
        (grows_fdDetach fd).bind fun _ => .ite (grows_pure _)
          ((grows_setFdObj _).bind fun _ => grows_pure _)
  | kfstat fd => exact safe_withFile_iff hbad fun _ => grows_pure _
  | klseek fd => exact safe_withFile_iff hbad fun _ => .ite (grows_pure _) (grows_pure _)
  | kioctl fd cmd =>
      exact safe_withFile_iff hbad fun _ => .ite (grows_pure _) (.ite (grows_pure _) (grows_pure _))
  | kfcntl fd cmd =>
      exact safe_withFile_iff hbad fun fp => .ite (grows_pure _) (.ite (grows_pure _)
        (.ite (grows_pure _) (.ite (grows_pure _) (.ite (grows_pure _) (.ite
          (grows_unusedFd.bind fun _ => grows_theProc.bind fun _ => .ite (grows_pure _)
            ((grows_fdAttach _ fp).bind fun _ => grows_pure _)) (grows_pure _))))))
  | kdup2 oldfd newfd => exact safe_kdup2_iff hbad
  | kisatty fd => exact safe_withFile_iff hbad fun _ => .ite (grows_pure _) (grows_pure _)

end

/-! ### The system calls -/

/-- The system calls with a descriptor. -/
inductive SysFd where
  | read
  | write
  | close
  | fstat
  | lseek
  | ioctl
  | fcntl
  | dup2
  | isatty

def SysFd.run (regs : Access.Regs) (io : Access.Io) : SysFd → TableM ℤ
  | .read => Access.sysRead regs io
  | .write => Access.sysWrite regs io
  | .close => Access.sysClose regs
  | .fstat => Access.sysFstat regs io
  | .lseek => Access.sysLseek regs io
  | .ioctl => Access.sysIoctl regs io
  | .fcntl => Access.sysFcntl regs io
  | .dup2 => Access.sysDup2 regs
  | .isatty => Access.sysIsatty regs io

/-- The program passes a number that is no descriptor. `sys_close` and `sys_isatty` take it from
another register. -/
def SysFd.Bad (p : Proc) (regs : Access.Regs) : SysFd → Prop
  | .read | .write | .fstat | .lseek | .ioctl | .fcntl => BadFd p regs.ebx.toInt
  | .close | .isatty => BadFd p regs.ecx.toInt
  | .dup2 => BadFd p regs.ebx.toInt ∨ ¬ InTable regs.ecx.toInt

/-- The number is in the table, or a check refuses it or another argument first. A transfer of no
bytes and a copy of a descriptor to itself are not refused. -/
def SysFd.Fits (regs : Access.Regs) (io : Access.Io) : SysFd → Prop
  | .read | .write => regs.ebx.toInt < 0 ∨ regs.ecx = 0 ∨ regs.edx > 0x7FFFFFFF#32 ∨
      (regs.edx ≠ 0 ∧ regs.ebx.toInt < 1024)
  | .close | .isatty => InTable regs.ecx.toInt
  | .fstat => regs.ebx.toInt < 0 ∨ regs.ecx = 0 ∨ regs.ebx.toInt < 1024
  | .lseek => regs.ebx.toInt < 0 ∨ (regs.edx ≠ 0 ∧ regs.edx ≠ 1 ∧ regs.edx ≠ 2) ∨
      regs.ebx.toInt < 1024
  | .ioctl => regs.ebx.toInt < 0 ∨ Access.iocparmLen regs.ecx > 4096 ∨
      (regs.ecx &&& 0x80000000#32 ≠ 0 ∧ Access.iocparmLen regs.ecx ≠ 0 ∧ io.copyIn < 0) ∨
      regs.ebx.toInt < 1024
  | .fcntl => (regs.ebx.toInt < 0 ∨ regs.ebx.toInt > 1024) ∨ regs.ebx.toInt < 1024
  | .dup2 => (regs.ebx.toInt < 0 ∨ regs.ecx.toInt < 0) ∨ regs.ecx.toInt ≠ regs.ebx.toInt

section

variable {p : Proc} {io : Access.Io} {regs : Access.Regs} {m : TableM ℤ} {c Q : Prop} [Decidable c]
  {ret : ℤ}

open Access

/-- A check that ends a call with an error. -/
theorem safe_check_iff (hret : c → ret < 0) (hm : ¬ c → (Safe p m ↔ Q)) :
    Safe p (if c then pure ret else m) ↔ c ∨ Q := by
  by_cases hc : c
  · rw [if_pos hc, safe_pure]
    exact iff_of_true (hret hc) (Or.inl hc)
  · rw [if_neg hc, hm hc]
    exact ⟨Or.inr, fun h => h.resolve_left hc⟩

/-- A check that ends a call without one. -/
theorem safe_done_iff (hret : 0 ≤ ret) (hm : ¬ c → (Safe p m ↔ Q)) :
    Safe p (if c then pure ret else m) ↔ ¬ c ∧ Q := by
  by_cases hc : c
  · rw [if_pos hc, safe_pure]
    exact iff_of_false (by omega) fun h => h.1 hc
  · rw [if_neg hc, hm hc]
    exact ⟨fun h => ⟨hc, h⟩, fun h => h.2⟩

/-- A number that the program passed is looked for after it was found not to be negative. -/
theorem inTable_iff_lt {fd : ℤ} (hneg : ¬ fd < 0) : InTable fd ↔ fd < 1024 :=
  and_iff_right (not_lt.mp hneg)

theorem safe_sysFd_iff (c : SysFd) (hbad : c.Bad p regs) :
    Safe p (c.run regs io) ↔ c.Fits regs io := by
  have hinval : -eINVAL < 0 := by decide
  cases c with
  | read =>
      have hk := @safe_fdCall_iff p io (.kread regs.ebx.toInt regs.edx.toInt) hbad
      exact safe_check_iff (fun _ => hinval) fun hneg => safe_check_iff (fun _ => hinval) fun _ =>
        safe_check_iff (fun _ => hinval) fun _ => safe_done_iff le_rfl fun _ =>
          hk.trans (inTable_iff_lt hneg)
  | write =>
      have hk := @safe_fdCall_iff p io (.kwrite regs.ebx.toInt) hbad
      exact safe_check_iff (fun _ => hinval) fun hneg => safe_check_iff (fun _ => hinval) fun _ =>
        safe_check_iff (fun _ => hinval) fun _ => safe_done_iff le_rfl fun _ =>
          hk.trans (inTable_iff_lt hneg)
  | close => exact @safe_fdCall_iff p io (.kclose regs.ecx.toInt) hbad
  | fstat =>
      have hk := @safe_withFile_bind_iff p regs.ebx.toInt _ _ hbad
        (fun _ => grows_pure (min 0 (io.op.getD (-eNOSYS))))
        (fun ret => .ite (c := ret < 0) (grows_pure ret) (grows_pure (min 0 io.copyOut))) rfl
      exact safe_check_iff (fun _ => hinval) fun hneg => safe_check_iff (fun _ => hinval) fun _ =>
        hk.trans (inTable_iff_lt hneg)
  | lseek =>
      have hk := @safe_fdCall_iff p io (.klseek regs.ebx.toInt) hbad
      exact safe_check_iff (fun _ => hinval) fun hneg => safe_check_iff (fun _ => hinval) fun _ =>
        hk.trans (inTable_iff_lt hneg)
  | ioctl =>
      have hk := @safe_withFile_bind_iff p regs.ebx.toInt _ _ hbad
        (fun _ => Grows.ite (c := io.fFlags &&& 3 = 0) (grows_pure (-eBADF))
          (.ite (c := regs.ecx = 0x8004667C#32 ∨ regs.ecx = 0x4004667B#32) (grows_pure (-eNOSYS))
            (grows_pure (io.op.getD (-eNOSYS)))))
        (fun ret => .ite (c := ret = 0 ∧ regs.ecx &&& 0x40000000#32 ≠ 0 ∧ iocparmLen regs.ecx ≠ 0)
          (grows_pure io.copyOut) (grows_pure ret)) rfl
      exact safe_check_iff (fun _ => hinval) fun hneg => safe_check_iff (fun _ => by decide) fun _ =>
        safe_check_iff (fun h => h.2.2) fun _ => hk.trans (inTable_iff_lt hneg)
  | fcntl =>
      have hk := @safe_fdCall_iff p io (.kfcntl regs.ebx.toInt regs.ecx.toInt) hbad
      exact safe_check_iff (fun _ => hinval) fun hout =>
        hk.trans (inTable_iff_lt fun hneg => hout (Or.inl hneg))
  | dup2 =>
      have hk := @safe_fdCall_iff p io (.kdup2 regs.ebx.toInt regs.ecx.toInt) hbad
      refine safe_check_iff (fun _ => hinval) fun hneg => (safe_done_iff le_rfl fun _ => hk).trans
        (and_iff_left (Or.inr (Or.inr (Or.inr ?_))))
      omega
  | isatty => exact @safe_fdCall_iff p io (.kisatty regs.ecx.toInt) hbad

/-- **Which descriptors are safe**, in the functions and in the system calls that lead to them. -/
theorem fdCall_safe_iff (p : Proc) (io : Io) :
    (∀ c : FdCall, c.Bad p → (Safe p (c.run io) ↔ c.Fits p)) ∧
      ∀ (regs : Regs) (c : SysFd), c.Bad p regs → (Safe p (c.run regs io) ↔ c.Fits regs io) :=
  ⟨fun c hbad => safe_fdCall_iff c hbad, fun _ c hbad => safe_sysFd_iff c hbad⟩

end

/-! ## A descriptor behind the table -/

/-- What `kisatty(5000)` and a read of ten bytes from it meet. -/
def ioOf : Access.Io where
  fFlags := 1
  alloc := true
  op := some 10
  copyIn := 0
  copyOut := 10
  isReg := true
  isChr := false

/-- A closed descriptor is refused. -/
theorem fdCall_safe_iff_closed :
    Safe (freshProc (fun _ => 0xC0000000#32) fun _ => 0) (FdCall.run ioOf (.kread 7 10)) ∧
      Safe (freshProc (fun _ => 0xC0000000#32) fun _ => 0) (SysFd.run ⟨7, 0x1000, 10⟩ ioOf .read) := by
  obtain ⟨hk, hsys⟩ := fdCall_safe_iff (freshProc (fun _ => 0xC0000000#32) fun _ => 0) ioOf
  have hclosed : (freshProc (fun _ => 0xC0000000#32) fun _ => 0).file 7 = 0 := rfl
  exact ⟨(hk (.kread 7 10) (Or.inr (Or.inr hclosed))).mpr ⟨by decide, by decide⟩,
    (hsys ⟨7, 0x1000, 10⟩ .read (Or.inr (Or.inr hclosed))).mpr
      (Or.inr (Or.inr (Or.inr ⟨by decide, by decide⟩)))⟩

/-- What lies behind the table is taken for a file. -/
theorem fdCall_can_leave_table :
    ¬ ∀ (p : Proc) (io : Access.Io) (regs : Access.Regs) (c : SysFd), c.Bad p regs →
      Safe p (c.run regs io) := by
  intro hall
  have hsafe := hall (freshProc (fun _ => 0xC0000000#32) fun _ => 0) ioOf ⟨5000, 0x1000, 10⟩ .read
    (Or.inr (Or.inl (by decide)))
  have hfits := (safe_sysFd_iff .read (Or.inr (Or.inl (by decide)))).mp hsafe
  exact absurd hfits (by unfold SysFd.Fits; decide)

end Shaunos.Fs
